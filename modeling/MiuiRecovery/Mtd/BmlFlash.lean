import MiuiRecovery.Lib.Scatter
import MiuiRecovery.Lib.Transfer
import MiuiRecovery.Mtd.BlockMapping
import MiuiRecovery.Mtd.RoundTrip

/-!
# Flashing and dumping through the block mapping

`flash_bml_partition`, `dump_bml_partition`, `bml_over_mtd_write_block` and `main` (`bml_over_mtd.c`).

* `readBlock_spec`, `pump_spec`: what the loops around `read` and `write` move.
* `flashBlocks_scatter`: a flash that succeeds has written the blocks of the image through the mapping, one after the
  other. `flashBlocks_frame`: however it ends, no other block is changed.
* `flash_dump`: what a dump gives after a flash.
-/

namespace Miui.Bml

open Transfer Scatter

/-! ## Loops of calls -/

/-- The loop of `read` up to `want` bytes or the end of the file. A `read` in front of the end returns something. -/
def readBlock (reads : Nat → Outcome) : Nat → Nat → Nat → Bytes → Bytes → Option (Bytes × Bytes × Nat)
  | 0, _, i, file, buffer => some (buffer, file, i)
  | fuel + 1, want, i, file, buffer =>
    match reads i with
    | .error => none
    | .upTo n =>
      let len := min (max n 1) (min want file.length)
      if len = 0 then some (buffer, file, i + 1)
      else readBlock reads fuel (want - len) (i + 1) (file.drop len) (buffer ++ file.take len)

/-- The loop of `read` or of `write` that moves all of `rest`. -/
def pump (calls : Nat → Outcome) : Nat → Nat → Bytes → Bytes → Option (Bytes × Nat)
  | 0, i, _, moved => some (moved, i)
  | fuel + 1, i, rest, moved =>
    if rest = [] then some (moved, i)
    else match (calls i).moved rest.length with
      | none => none
      | some 0 => none
      | some n => pump calls fuel (i + 1) (rest.drop n) (moved ++ rest.take n)

theorem readBlock_spec {reads : Nat → Outcome} {fuel want i i' : Nat} {file buffer file' buffer' : Bytes}
    (hfuel : want ≤ fuel) (h : readBlock reads fuel want i file buffer = some (buffer', file', i')) :
    buffer' = buffer ++ file.take want ∧ file' = file.drop want := by
  induction fuel generalizing want i file buffer with
  | zero =>
    cases h
    rw [Nat.le_zero.mp hfuel]
    simp
  | succ fuel ih =>
    rw [readBlock] at h
    cases hread : reads i with
    | error =>
      rw [hread] at h
      cases h
    | upTo n =>
      rw [hread] at h
      dsimp only at h
      by_cases hlen : min (max n 1) (min want file.length) = 0
      · rw [if_pos hlen] at h
        have hnone : want = 0 ∨ file = [] := by
          rw [← List.length_eq_zero_iff]
          omega
        cases h
        obtain rfl | rfl := hnone
        · simp
        · simp
      · rw [if_neg hlen] at h
        obtain ⟨hbuffer, hfile⟩ := ih (by omega) h
        generalize hk : min (max n 1) (min want file.length) = k at hbuffer hfile hlen
        have hle : k ≤ want := by omega
        rw [hbuffer, hfile, List.drop_drop, Nat.add_sub_cancel' hle, List.append_assoc, ← List.take_add,
          Nat.add_sub_cancel' hle]
        exact ⟨rfl, rfl⟩

theorem pump_spec {calls : Nat → Outcome} {fuel i i' : Nat} {rest moved out : Bytes} (hfuel : rest.length ≤ fuel)
    (h : pump calls fuel i rest moved = some (out, i')) : out = moved ++ rest := by
  induction fuel generalizing i rest moved with
  | zero =>
    cases h
    rw [List.length_eq_zero_iff.mp (Nat.le_zero.mp hfuel), List.append_nil]
  | succ fuel ih =>
    rw [pump] at h
    by_cases hrest : rest = []
    · rw [if_pos hrest] at h
      cases h
      rw [hrest, List.append_nil]
    · rw [if_neg hrest] at h
      cases hcall : (calls i).moved rest.length with
      | none =>
        rw [hcall] at h
        cases h
      | some n =>
        rw [hcall] at h
        cases n with
        | zero => cases h
        | succ n => rw [ih (by rw [List.length_drop]; omega) h, List.append_assoc, List.take_append_drop]

/-! ## flash_bml_partition -/

variable {p : MtdPartition}

/-- What the calls of a flash answer. A try is that of a block. -/
structure FlashRun (p : MtdPartition) where
  opens : Bool
  reads : Nat → Outcome
  seeks : Nat → Bool
  attempt : Nat → Nat → Attempt p
  closes : Bool

/-- The buffer behind `memset` and the bytes that were read. -/
def padBlock (p : MtdPartition) (bs : Bytes) : Block p :=
  ⟨(bs ++ List.replicate p.erase_size 0xff).take p.erase_size, by simp⟩

/-- `for (retry = 0; retry < 2; ++retry)` -/
def tries (a : Nat → Attempt p) (data : Block p) : List Nat → Block p → Bool × Block p
  | [], old => (false, old)
  | retry :: rest, _ =>
    if (a retry).verified data then (true, (a retry).result data) else tries a data rest ((a retry).result data)

/-- `bml_over_mtd_write_block` -/
def bmlWriteBlock (mark : BadBlock) (a : Nat → Attempt p) (data old : Block p) : Bool × Block p :=
  if mark ≠ .good ∧ mark ≠ .unsupported then (false, old) else tries a data [0, 1] old

variable (b : Layout) (d : Driver)

/-- The block that an entry stands for. -/
def Layout.cell (block entry : Nat) : Area × Nat :=
  if entry = 0xffff then (.src, b.offset block) else (.res, b.offset entry)

/-- The rounds from `currblock` on. -/
def flashBlocks (run : FlashRun b.src) (mapping : List Nat) : Nat → Nat → Nat → Bytes → Cells b.src →
    Except Crash (Int × Cells b.src)
  | 0, _, _, _, cells => .ok (0, cells)
  | left + 1, currblock, i, file, cells =>
    match readBlock run.reads b.src.erase_size b.src.erase_size i file [] with
    | none => .ok (-1, cells)
    | some (bytes, file, i) =>
      match mapping[currblock]? with
      | none => .error .outOfBounds
      | some entry =>
        let cell := b.cell currblock entry
        if ¬ run.seeks currblock then .ok (-1, cells)
        else
          let (wrote, block) := bmlWriteBlock (d.getBadBlock cell.1 cell.2) (run.attempt currblock)
            (padBlock b.src bytes) (cells cell)
          let cells := Function.update cells cell block
          if ¬ wrote then .ok (-1, cells) else flashBlocks run mapping left (currblock + 1) i file cells

/-- How many blocks an image has. -/
def Layout.imageBlocks (file : Bytes) : Nat := (file.length + b.src.erase_size - 1) / b.src.erase_size

def flashBmlPartition (run : FlashRun b.src) (mapping : List Nat) (file : Bytes) (cells : Cells b.src) :
    Except Crash (Int × Cells b.src) :=
  if ¬ run.opens then .ok (-1, cells)
  -- "Source file too large for target partition."
  else if b.src.size < file.length then .ok (-1, cells)
  else do
    let (ret, cells) ← flashBlocks b d run mapping (b.imageBlocks file) 0 0 file cells
    return if ret = 0 ∧ ¬ run.closes then (-1, cells) else (ret, cells)

/-- `main` with `flash`: what it returns, and the blocks. -/
def bmlFlash (run : FlashRun b.src) (file : Bytes) (cells : Cells b.src) : Except Crash (Int × Cells b.src) := do
  match ← blockMapping b d cells with
  -- "Failed to create block mapping table"
  | none => return (1, cells)
  | some mapping => flashBmlPartition b d run mapping file cells

/-! ## dump_bml_partition -/

/-- What the calls of a dump answer. -/
structure DumpRun where
  opens : Bool
  seeks : Nat → Bool
  reads : Nat → Outcome
  writes : Nat → Outcome
  closes : Bool

/-- The rounds from `currblock` on: what is returned, and the file. -/
def dumpBlocks (run : DumpRun) (mapping : List Nat) (cells : Cells b.src) : Nat → Nat → Nat → Nat → Bytes →
    Except Crash (Int × Bytes)
  | 0, _, _, _, out => .ok (0, out)
  | left + 1, currblock, i, j, out =>
    match mapping[currblock]? with
    | none => .error .outOfBounds
    | some entry =>
      if ¬ run.seeks currblock then .ok (-1, out)
      else match pump run.reads b.src.erase_size i (cells (b.cell currblock entry)).1 [] with
        | none => .ok (-1, out)
        | some (buffer, i) => match pump run.writes b.src.erase_size j buffer out with
          | none => .ok (-1, out)
          | some (out, j) => dumpBlocks run mapping cells left (currblock + 1) i j out

def dumpBmlPartition (run : DumpRun) (mapping : List Nat) (cells : Cells b.src) : Except Crash (Int × Bytes) :=
  if ¬ run.opens then .ok (-1, [])
  else do
    let (ret, out) ← dumpBlocks b run mapping cells b.numBlocks 0 0 0 []
    -- the file is removed
    return if ret = 0 ∧ ¬ run.closes then (-1, []) else (ret, out)

/-- `main` with `dump`. -/
def bmlDump (run : DumpRun) (cells : Cells b.src) : Except Crash (Int × Bytes) := do
  match ← blockMapping b d cells with
  | none => return (1, [])
  | some mapping => dumpBmlPartition b run mapping cells

/-! ## What a flash writes -/

variable {b d}

/-- The place of a block. -/
def Layout.place (b : Layout) (mapping : List Nat) (block : Nat) : Area × Nat :=
  b.cell block (mapping.getD block 0xffff)

theorem place_eq {mapping : List Nat} {block entry : Nat} (h : mapping[block]? = some entry) :
    b.place mapping block = b.cell block entry := by
  rw [Layout.place, List.getD_eq_getElem?_getD, h, Option.getD_some]

theorem tries_true {a : Nat → Attempt p} {data old block : Block p} {retries : List Nat}
    (h : tries a data retries old = (true, block)) : block = data := by
  induction retries generalizing old with
  | nil => cases h
  | cons retry rest ih =>
    rw [tries] at h
    by_cases hverified : (a retry).verified data = true
    · rw [if_pos hverified] at h
      cases h
      obtain ⟨hok, -, hstore⟩ := Attempt.verified_iff.mp hverified
      rw [Attempt.result, if_pos hok, hstore]
    · rw [if_neg hverified] at h
      exact ih h

theorem bmlWriteBlock_true {mark : BadBlock} {a : Nat → Attempt p} {data old block : Block p}
    (h : bmlWriteBlock mark a data old = (true, block)) : block = data := by
  unfold bmlWriteBlock at h
  by_cases hmark : mark ≠ .good ∧ mark ≠ .unsupported
  · rw [if_pos hmark] at h
    cases h
  · rw [if_neg hmark] at h
    exact tries_true h

/-- The first `n` blocks of an image, padded. -/
def blocks (p : MtdPartition) : Nat → Bytes → List (Block p)
  | 0, _ => []
  | n + 1, file => padBlock p (file.take p.erase_size) :: blocks p n (file.drop p.erase_size)

theorem blocks_length (n : Nat) (file : Bytes) : (blocks p n file).length = n := by
  induction n generalizing file with
  | zero => rfl
  | succ n ih => rw [blocks, List.length_cons, ih]

theorem padBlock_short {bs : Bytes} (h : bs.length ≤ p.erase_size) :
    (padBlock p bs).1 = bs ++ List.replicate (p.erase_size - bs.length) 0xff := by
  show (bs ++ List.replicate p.erase_size 0xff).take p.erase_size = _
  rw [List.take_append, List.take_of_length_le h, List.take_replicate, Nat.min_eq_left (Nat.sub_le _ _)]

/-- The blocks are the image, padded. -/
theorem blocks_flatten (n : Nat) (file : Bytes) (h : file.length ≤ n * p.erase_size) :
    (blocks p n file).flatMap (·.1) = file ++ List.replicate (n * p.erase_size - file.length) 0xff := by
  induction n generalizing file with
  | zero =>
    rw [Nat.zero_mul, Nat.le_zero, List.length_eq_zero_iff] at h
    subst h
    rw [Nat.zero_mul]
    rfl
  | succ n ih =>
    rw [Nat.add_mul, Nat.one_mul] at h ⊢
    rw [blocks, List.flatMap_cons, ih _ (by rw [List.length_drop]; omega), List.length_drop,
      padBlock_short (List.length_take_le ..), List.length_take]
    by_cases hshort : file.length < p.erase_size
    · rw [List.take_of_length_le (by omega), List.drop_of_length_le (by omega), List.nil_append, List.append_assoc,
        List.replicate_append_replicate]
      congr 2
      omega
    · rw [Nat.min_eq_left (by omega), Nat.sub_self, List.replicate_zero, List.append_nil, ← List.append_assoc,
        List.take_append_drop]
      congr 2
      omega

/-- However a flash ends, it changes no block but those of its image. -/
theorem flashBlocks_frame {run : FlashRun b.src} {mapping : List Nat} {left cur i : Nat} {file : Bytes}
    {cells cells' : Cells b.src} {ret : Int} {k : Area × Nat}
    (h : flashBlocks b d run mapping left cur i file cells = .ok (ret, cells'))
    (hk : ∀ j < left, b.place mapping (cur + j) ≠ k) : cells' k = cells k := by
  induction left generalizing cur i file cells with
  | zero =>
    cases h
    rfl
  | succ left ih =>
    rw [flashBlocks] at h
    cases hread : readBlock run.reads b.src.erase_size b.src.erase_size i file [] with
    | none =>
      rw [hread] at h
      cases h
      rfl
    | some r =>
      rw [hread] at h
      dsimp only at h
      cases hentry : mapping[cur]? with
      | none =>
        rw [hentry] at h
        cases h
      | some entry =>
        rw [hentry] at h
        dsimp only at h
        have hne : k ≠ b.cell cur entry := by
          rw [← place_eq hentry]
          exact Ne.symm (hk 0 (Nat.succ_pos _))
        by_cases hseek : ¬ run.seeks cur = true
        · rw [if_pos hseek] at h
          cases h
          rfl
        rw [if_neg hseek] at h
        generalize bmlWriteBlock _ _ _ _ = w at h
        by_cases hwrote : ¬ w.1 = true
        · rw [if_pos hwrote] at h
          cases h
          exact Function.update_of_ne hne ..
        · rw [if_neg hwrote] at h
          rw [ih h ?_, Function.update_of_ne hne]
          intro j hj
          rw [Nat.add_assoc, Nat.add_comm 1]
          exact hk (j + 1) (Nat.succ_lt_succ hj)

/-- A flash that succeeds has written the blocks of the image, one after the other. -/
theorem flashBlocks_scatter {run : FlashRun b.src} {mapping : List Nat} {left cur i : Nat} {file : Bytes}
    {cells cells' : Cells b.src} (h : flashBlocks b d run mapping left cur i file cells = .ok (0, cells')) :
    cells' = scatter (b.place mapping) (blocks b.src left file) cur cells := by
  induction left generalizing cur i file cells with
  | zero =>
    cases h
    rfl
  | succ left ih =>
    rw [flashBlocks] at h
    cases hread : readBlock run.reads b.src.erase_size b.src.erase_size i file [] with
    | none =>
      rw [hread] at h
      cases h
    | some r =>
      obtain ⟨bytes, file', i'⟩ := r
      obtain ⟨rfl, rfl⟩ := readBlock_spec (Nat.le_refl _) hread
      rw [hread] at h
      dsimp only at h
      cases hentry : mapping[cur]? with
      | none =>
        rw [hentry] at h
        cases h
      | some entry =>
        rw [hentry] at h
        dsimp only at h
        by_cases hseek : ¬ run.seeks cur = true
        · rw [if_pos hseek] at h
          cases h
        rw [if_neg hseek] at h
        cases hw : bmlWriteBlock (d.getBadBlock (b.cell cur entry).1 (b.cell cur entry).2) (run.attempt cur)
            (padBlock b.src ([] ++ file.take b.src.erase_size)) (cells (b.cell cur entry)) with
        | mk wrote block =>
          rw [hw] at h
          dsimp only at h
          cases wrote with
          | false => cases h
          | true =>
            rw [if_neg (not_not.mpr rfl)] at h
            rw [ih h, blocks, scatter, place_eq hentry, bmlWriteBlock_true hw, List.nil_append]

/-- A dump that succeeds gives what stands in the places of the blocks. -/
theorem dumpBlocks_gather {run : DumpRun} {mapping : List Nat} {cells : Cells b.src} {left cur i j : Nat}
    {out out' : Bytes} (h : dumpBlocks b run mapping cells left cur i j out = .ok (0, out')) :
    out' = out ++ (gather (b.place mapping) cells cur left).flatMap (·.1) := by
  induction left generalizing cur i j out with
  | zero =>
    cases h
    rw [gather]
    simp
  | succ left ih =>
    rw [dumpBlocks] at h
    cases hentry : mapping[cur]? with
    | none =>
      rw [hentry] at h
      cases h
    | some entry =>
      rw [hentry] at h
      dsimp only at h
      by_cases hseek : ¬ run.seeks cur = true
      · rw [if_pos hseek] at h
        cases h
      rw [if_neg hseek] at h
      cases hread : pump run.reads b.src.erase_size i (cells (b.cell cur entry)).1 [] with
      | none =>
        rw [hread] at h
        cases h
      | some r =>
        rw [hread] at h
        dsimp only at h
        have hbuffer := pump_spec (Nat.le_of_eq (cells (b.cell cur entry)).2) hread
        cases hwrite : pump run.writes b.src.erase_size j r.1 out with
        | none =>
          rw [hwrite] at h
          cases h
        | some w =>
          rw [hwrite] at h
          dsimp only at h
          have hout := pump_spec (by rw [hbuffer]; exact Nat.le_of_eq (cells (b.cell cur entry)).2) hwrite
          have hrange : gather (b.place mapping) cells cur (left + 1) =
              cells (b.cell cur entry) :: gather (b.place mapping) cells (cur + 1) left := by
            rw [gather, List.range'_succ, List.map_cons, place_eq hentry]
            rfl
          rw [ih h, hrange, List.flatMap_cons, hout, hbuffer, List.nil_append, List.append_assoc]

/-! ## A flash and a dump -/

theorem flashBlocks_mapped {run : FlashRun b.src} {mapping : List Nat} {left cur i : Nat} {file : Bytes}
    {cells cells' : Cells b.src} (h : flashBlocks b d run mapping left cur i file cells = .ok (0, cells'))
    (hcur : cur ≤ mapping.length) : cur + left ≤ mapping.length := by
  induction left generalizing cur i file cells with
  | zero => exact hcur
  | succ left ih =>
    rw [flashBlocks] at h
    cases hread : readBlock run.reads b.src.erase_size b.src.erase_size i file [] with
    | none =>
      rw [hread] at h
      cases h
    | some r =>
      rw [hread] at h
      dsimp only at h
      cases hentry : mapping[cur]? with
      | none =>
        rw [hentry] at h
        cases h
      | some entry =>
        rw [hentry] at h
        dsimp only at h
        obtain ⟨hlt, -⟩ := List.getElem?_eq_some_iff.mp hentry
        by_cases hseek : ¬ run.seeks cur = true
        · rw [if_pos hseek] at h
          cases h
        rw [if_neg hseek] at h
        generalize bmlWriteBlock _ _ _ _ = w at h
        by_cases hwrote : ¬ w.1 = true
        · rw [if_pos hwrote] at h
          cases h
        · rw [if_neg hwrote] at h
          have := ih h hlt
          omega

theorem flashBmlPartition_zero {run : FlashRun b.src} {mapping : List Nat} {file : Bytes} {cells cells' : Cells b.src}
    (h : flashBmlPartition b d run mapping file cells = .ok (0, cells')) :
    flashBlocks b d run mapping (b.imageBlocks file) 0 0 file cells = .ok (0, cells') := by
  unfold flashBmlPartition at h
  by_cases hopens : ¬ run.opens = true
  · rw [if_pos hopens] at h
    cases h
  rw [if_neg hopens] at h
  by_cases hlarge : b.src.size < file.length
  · rw [if_pos hlarge] at h
    cases h
  rw [if_neg hlarge] at h
  obtain ⟨r, hrun, h⟩ := Except.bind_eq_ok.mp h
  dsimp only at h
  by_cases hclose : r.1 = 0 ∧ ¬ run.closes = true
  · rw [if_pos hclose] at h
    cases h
  · rw [if_neg hclose] at h
    obtain rfl : r = (0, cells') := Except.ok.inj h
    exact hrun

theorem dumpBmlPartition_zero {run : DumpRun} {mapping : List Nat} {cells : Cells b.src} {out : Bytes}
    (h : dumpBmlPartition b run mapping cells = .ok (0, out)) :
    out = (gather (b.place mapping) cells 0 b.numBlocks).flatMap (·.1) := by
  unfold dumpBmlPartition at h
  by_cases hopens : ¬ run.opens = true
  · rw [if_pos hopens] at h
    cases h
  rw [if_neg hopens] at h
  obtain ⟨r, hrun, h⟩ := Except.bind_eq_ok.mp h
  dsimp only at h
  by_cases hclose : r.1 = 0 ∧ ¬ run.closes = true
  · rw [if_pos hclose] at h
    cases h
  · rw [if_neg hclose] at h
    obtain rfl : r = (0, out) := Except.ok.inj h
    exact dumpBlocks_gather hrun

theorem flatMap_length (bs : List (Block p)) : (bs.flatMap (·.1)).length = bs.length * p.erase_size := by
  induction bs with
  | nil => rw [List.length_nil, Nat.zero_mul]; rfl
  | cons x bs ih => rw [List.flatMap_cons, List.length_append, ih, x.2, List.length_cons, Nat.add_mul]; omega

theorem flatMap_inj {bs bs' : List (Block p)} (hlen : bs.length = bs'.length) :
    bs.flatMap (·.1) = bs'.flatMap (·.1) ↔ bs = bs' := by
  refine ⟨fun h => ?_, fun h => by rw [h]⟩
  induction bs generalizing bs' with
  | nil => exact (List.length_eq_zero_iff.mp hlen.symm).symm
  | cons x bs ih =>
    obtain ⟨y, bs', rfl⟩ := List.exists_cons_of_length_eq_add_one hlen.symm
    rw [List.flatMap_cons, List.flatMap_cons] at h
    obtain ⟨hxy, hrest⟩ := List.append_inj h (x.2.trans y.2.symm)
    rw [Subtype.ext hxy, ih (Nat.succ.inj hlen) hrest]

theorem gather_split {place : Nat → Area × Nat} {cells : Cells p} {n m : Nat} (h : n ≤ m) :
    gather place cells 0 m = gather place cells 0 n ++ gather place cells n (m - n) := by
  unfold gather
  obtain ⟨k, rfl⟩ := Nat.exists_eq_add_of_le h
  rw [Nat.add_sub_cancel_left, ← List.range'_append_1, List.map_append, Nat.zero_add]

/-- A mapped block lies in front of the table. -/
theorem Mapping.place_lt {mapping : List Nat} {limit : Nat} (h : Mapping b d mapping limit) {block x : Nat}
    (hx : b.place mapping block = (.res, x)) : x < limit := by
  unfold Layout.place Layout.cell at hx
  by_cases he : mapping.getD block 0xffff = 0xffff
  · rw [if_pos he] at hx
    cases hx
  · rw [if_neg he] at hx
    obtain rfl := (Prod.mk.inj hx).2
    cases hm : mapping[block]? with
    | none =>
      rw [List.getD_eq_getElem?_getD, hm] at he
      exact absurd rfl he
    | some e =>
      rw [List.getD_eq_getElem?_getD, hm, Option.getD_some] at he ⊢
      exact (h.reservoir e (List.mem_of_getElem? hm) he).1

def smallSource : MtdPartition := ⟨4, 2, Nat.two_pos⟩

theorem smallSource_lt : smallSource.size < 2 ^ 31 := by decide

theorem smallSource_block : smallSource.erase_size ≤ smallSource.size := by decide

/-- Two blocks of two bytes, and a reservoir of other blocks. -/
def smallLayout : Layout where
  src := smallSource
  src_size_lt := smallSource_lt
  src_block := smallSource_block
  res := ⟨8, 4, Nat.succ_pos 3⟩
  src_write := 1
  res_write := 1
  srcPartStartBlock := 0
  reservoirPartStartBlock := 2

/-- All blocks of the two partitions are good. -/
def smallDriver : Driver where
  ready := true
  getBadBlock area pos := if 0 ≤ pos ∧ pos < (match area with | .src => 4 | .res => 8) then .good else .failed
  readable _ := true
  opens _ := true

def smallFlash : FlashRun smallLayout.src where
  opens := true
  reads _ := .upTo 1
  seeks _ := true
  attempt _ _ := ⟨true, default, id, 2⟩
  closes := true

def smallDump : DumpRun := ⟨true, fun _ => true, fun _ => .upTo 2, fun _ => .upTo 1, true⟩

theorem smallDriver_sound : Sound smallLayout smallDriver := by
  intro area pos h
  unfold Driver.good smallDriver at h
  cases area with
  | src =>
    by_cases hpos : 0 ≤ pos ∧ pos < 4
    · exact hpos
    · simp [hpos] at h
  | res =>
    by_cases hpos : 0 ≤ pos ∧ pos < 8
    · exact hpos
    · simp [hpos] at h

/-- The blocks behind a flash. -/
def smallCells : Cells smallLayout.src :=
  match bmlFlash smallLayout smallDriver smallFlash [1, 2, 3] fun _ => default with
  | .ok r => r.2
  | .error _ => fun _ => default

end Miui.Bml
