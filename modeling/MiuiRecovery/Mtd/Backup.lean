import MiuiRecovery.Mtd.RawPartition

/-!
# Backing up a raw partition

`cmd_mtd_backup_raw_partition` (`mtdutils.c`): the blocks of a partition are read into a file, `BLOCK_SIZE` bytes
at a time, up to the first read that fails; the end of the partition is one of the failures.

* `delivered`: the blocks that `read_block` returns one after the other.
* `backup_file`: the file has the whole chunks of these blocks.
* `backs_up_iff`: for which drivers a backup that returns 0 has all of the partition.
-/

namespace Miui

namespace Raw

open Chunks Transfer

variable {p : MtdPartition} {c : Chip p} {fl : Flash p}

/-! ## The blocks that are read -/

/-- The block that `read_block` returns, a function of the driver alone. -/
def nextBlockFrom (c : Chip p) (pos : Nat) : Option Nat :=
  if p.fits pos then
    match c.read pos with
    | .noStats => none
    | .ok => if c.getBadBlock pos = .good then some pos else nextBlockFrom c (pos + p.erase_size)
    | _ => nextBlockFrom c (pos + p.erase_size)
  else none
termination_by p.left pos
decreasing_by all_goals exact MtdPartition.left_lt (by assumption)

def nextBlock (c : Chip p) (pos : Nat) : Option Nat := if c.stats_ok pos then nextBlockFrom c pos else none

theorem readBlock_next (c : Chip p) (fl : Flash p) (pos : Nat) :
    readBlock c fl pos = (nextBlock c pos).map fun q => (fl q, q + p.erase_size) := by
  have hfrom : readBlockFrom c fl pos = (nextBlockFrom c pos).map fun q => (fl q, q + p.erase_size) := by
    fun_induction nextBlockFrom c pos with
    | case1 pos hf hr => rw [readBlockFrom, if_pos hf, hr]; rfl
    | case2 pos hf hr hg => rw [readBlockFrom, if_pos hf, hr, if_pos hg]; rfl
    | case3 pos hf hr hg ih => rw [readBlockFrom, if_pos hf, hr, if_neg hg, ih]
    | case4 pos hf _ _ ih =>
      rw [readBlockFrom, if_pos hf, ← ih]
      split <;> first | contradiction | rfl
    | case5 pos hf => rw [readBlockFrom, if_neg hf]; rfl
  rw [readBlock, nextBlock, hfrom]
  split <;> rfl

/-- The block is unmarked and reads, and the blocks passed over before it have their statistics. -/
theorem nextBlockFrom_spec {pos q : Nat} (h : nextBlockFrom c pos = some q) :
    (c.getBadBlock q = .good ∧ c.read q = .ok) ∧ (p.fits q ∧ pos ≤ q ∧ p.erase_size ∣ q - pos) ∧
      (∀ x, pos ≤ x → x < q → p.erase_size ∣ x - pos → c.read x ≠ .noStats) ∧
      ∃ passed, usableBlocks c pos = passed ++ q :: usableBlocks c (q + p.erase_size) := by
  have hpos := p.erase_size_pos
  -- one block further
  have hnext : ∀ {pos : Nat}, p.fits pos → c.read pos ≠ .noStats → pos + p.erase_size ≤ q →
      p.erase_size ∣ q - (pos + p.erase_size) →
      (∀ x, pos + p.erase_size ≤ x → x < q → p.erase_size ∣ x - (pos + p.erase_size) → c.read x ≠ .noStats) →
      (∃ passed, usableBlocks c (pos + p.erase_size) = passed ++ q :: usableBlocks c (q + p.erase_size)) →
      (pos ≤ q ∧ p.erase_size ∣ q - pos) ∧
      (∀ x, pos ≤ x → x < q → p.erase_size ∣ x - pos → c.read x ≠ .noStats) ∧
      ∃ passed, usableBlocks c pos = passed ++ q :: usableBlocks c (q + p.erase_size) := by
    intro pos hf hr hle hdvd hpass ⟨passed, hu⟩
    refine ⟨⟨by omega, ?_⟩, fun x hx hlt hd => ?_, ?_⟩
    · rw [show q - pos = q - (pos + p.erase_size) + p.erase_size by omega]
      exact Nat.dvd_add hdvd (Nat.dvd_refl _)
    · by_cases hx' : x = pos
      · exact hx' ▸ hr
      · have hge : p.erase_size ≤ x - pos := Nat.le_of_dvd (by omega) hd
        refine hpass x (by omega) hlt ?_
        rw [show x - (pos + p.erase_size) = x - pos - p.erase_size by omega]
        exact Nat.dvd_sub hd (Nat.dvd_refl _)
    · by_cases hm : c.getBadBlock pos ≠ .good ∧ c.getBadBlock pos ≠ .unsupported
      · exact ⟨passed, by rw [usableBlocks, if_pos hf, if_pos hm, hu]⟩
      · exact ⟨pos :: passed, by rw [usableBlocks, if_pos hf, if_neg hm, hu, List.cons_append]⟩
  fun_induction nextBlockFrom c pos with
  | case1 => cases h
  | case2 pos hf hr hg =>
    obtain rfl := Option.some.inj h
    refine ⟨⟨hg, hr⟩, ⟨hf, Nat.le_refl _, by simp⟩, fun x hx hlt => absurd hx (by omega), [], ?_⟩
    rw [usableBlocks, if_pos hf, if_neg (by simp [hg]), List.nil_append]
  | case3 pos hf hr hg ih =>
    obtain ⟨hq, ⟨hfq, hle, hdvd⟩, hpass, hu⟩ := ih h
    obtain ⟨hpos', hpass', hu'⟩ := hnext hf (by simp [hr]) hle hdvd hpass hu
    exact ⟨hq, ⟨hfq, hpos'⟩, hpass', hu'⟩
  | case4 pos hf hr _ ih =>
    obtain ⟨hq, ⟨hfq, hle, hdvd⟩, hpass, hu⟩ := ih h
    obtain ⟨hpos', hpass', hu'⟩ := hnext hf hr hle hdvd hpass hu
    exact ⟨hq, ⟨hfq, hpos'⟩, hpass', hu'⟩
  | case5 => cases h

theorem nextBlock_from {pos q : Nat} (h : nextBlock c pos = some q) :
    c.stats_ok pos = true ∧ nextBlockFrom c pos = some q := by
  unfold nextBlock at h
  split at h
  · next hs => exact ⟨hs, h⟩
  · cases h

/-- The blocks that `read_block` returns one after the other. -/
def delivered (c : Chip p) (pos : Nat) : List Nat :=
  match _h : nextBlock c pos with
  | none => []
  | some q => q :: delivered c (q + p.erase_size)
termination_by p.left pos
decreasing_by
  obtain ⟨-, ⟨hf, hle, -⟩, -⟩ := nextBlockFrom_spec (nextBlock_from ‹_›).2
  have := MtdPartition.left_lt hf
  unfold MtdPartition.left at this ⊢
  omega

theorem delivered_none {pos : Nat} (h : nextBlock c pos = none) : delivered c pos = [] := by
  rw [delivered]
  split
  · rfl
  · simp_all

theorem delivered_some {pos q : Nat} (h : nextBlock c pos = some q) :
    delivered c pos = q :: delivered c (q + p.erase_size) := by
  rw [delivered]
  split
  · simp_all
  · next q' hq' =>
    cases h.symm.trans hq'
    rfl

/-- They are some of the blocks without a bad mark. -/
theorem delivered_sublist (c : Chip p) (pos : Nat) : (delivered c pos).Sublist (usableBlocks c pos) := by
  fun_induction delivered c pos with
  | case1 => exact List.nil_sublist _
  | case2 pos q h ih =>
    obtain ⟨-, -, -, passed, hu⟩ := nextBlockFrom_spec (nextBlock_from h).2
    rw [hu]
    exact (ih.cons_cons q).trans (List.sublist_append_right _ _)

/-- The driver lets every block from `pos` on without a bad mark be read. -/
structure ReadsAll (c : Chip p) (pos : Nat) : Prop where
  /-- The block reads, and the driver says that it is good. -/
  reads : ∀ q ∈ usableBlocks c pos, c.getBadBlock q = .good ∧ c.read q = .ok
  /-- The statistics do not fail behind a block before it. -/
  passes : ∀ q ∈ usableBlocks c pos, ∀ x, pos ≤ x → x < q → p.erase_size ∣ x - pos → c.read x ≠ .noStats
  /-- Nor before the first block, or between two of them. -/
  stats : ∀ q ∈ usableBlocks c pos, ∀ x, x = pos ∨ (∃ r ∈ usableBlocks c pos, x = r + p.erase_size) → x ≤ q →
    c.stats_ok x = true

/-- The first block without a bad mark is the one that is returned. -/
theorem nextBlockFrom_first {pos q : Nat} {rest : List Nat} (hu : usableBlocks c pos = q :: rest)
    (hq : c.getBadBlock q = .good ∧ c.read q = .ok)
    (hpass : ∀ x, pos ≤ x → x < q → p.erase_size ∣ x - pos → c.read x ≠ .noStats) :
    nextBlockFrom c pos = some q := by
  have hpos := p.erase_size_pos
  fun_induction usableBlocks c pos with
  | case1 pos hf hm ih =>
    have hlt : pos + p.erase_size ≤ q := usableBlocks_ge (by rw [hu]; exact List.mem_cons_self)
    have hnext : nextBlockFrom c (pos + p.erase_size) = some q := by
      refine ih hu fun x hx hxq hd => hpass x (by omega) hxq ?_
      rw [show x - pos = x - (pos + p.erase_size) + p.erase_size by omega]
      exact Nat.dvd_add hd (Nat.dvd_refl _)
    have hr := hpass pos (Nat.le_refl _) (by omega) (by simp)
    rw [nextBlockFrom, if_pos hf]
    cases hread : c.read pos with
    | noStats => exact absurd hread hr
    | ok => rw [← hnext]; exact if_neg hm.1
    | error => exact hnext
    | ecc => exact hnext
  | case2 pos hf hm ih =>
    obtain ⟨rfl, -⟩ := List.cons.inj hu
    rw [nextBlockFrom, if_pos hf, hq.2]
    exact if_pos hq.1
  | case3 => cases hu

/-- All of the blocks are returned exactly if the driver lets them be read. -/
theorem delivered_all_iff (c : Chip p) (pos : Nat) : delivered c pos = usableBlocks c pos ↔ ReadsAll c pos := by
  have hpos := p.erase_size_pos
  fun_induction delivered c pos with
  | case1 pos hnone =>
    constructor
    · intro hnil
      constructor <;> rw [← hnil] <;> intro q hq <;> cases hq
    · intro h
      cases hu : usableBlocks c pos with
      | nil => rfl
      | cons q rest =>
        have hmem : q ∈ usableBlocks c pos := by rw [hu]; exact List.mem_cons_self
        rw [nextBlock, if_pos (h.stats q hmem pos (.inl rfl) (usableBlocks_ge hmem)),
          nextBlockFrom_first hu (h.reads q hmem) (h.passes q hmem)] at hnone
        cases hnone
  | case2 pos q hnext ih =>
    obtain ⟨hstats, hfrom⟩ := nextBlock_from hnext
    obtain ⟨hq, ⟨-, hle, hdvd⟩, hpass, passed, hu⟩ := nextBlockFrom_spec hfrom
    have hsub := (delivered_sublist c (q + p.erase_size)).length_le
    constructor
    · intro heq
      -- no block was passed over
      obtain rfl : passed = [] := by
        have hlen := congrArg List.length (heq.trans hu)
        rw [List.length_cons, List.length_append, List.length_cons] at hlen
        exact List.eq_nil_of_length_eq_zero (by omega)
      rw [List.nil_append] at hu
      obtain ⟨hreads, hpasses, hstats'⟩ := ih.mp (List.cons.inj (heq.trans hu)).2
      refine ⟨fun g hg => ?_, fun g hg x hx hlt hd => ?_, fun g hg x hx hxg => ?_⟩
      · rw [hu] at hg
        rcases List.mem_cons.mp hg with rfl | hg
        · exact hq
        · exact hreads g hg
      · rw [hu] at hg
        rcases List.mem_cons.mp hg with rfl | hg
        · exact hpass x hx hlt hd
        · rcases Nat.lt_trichotomy x q with hxq | rfl | hxq
          · exact hpass x hx hxq hd
          · simp [hq.2]
          · have hd' : p.erase_size ∣ x - q := by
              rw [show x - q = x - pos - (q - pos) by omega]
              exact Nat.dvd_sub hd hdvd
            have hge := Nat.le_of_dvd (by omega) hd'
            refine hpasses g hg x (by omega) hlt ?_
            rw [show x - (q + p.erase_size) = x - q - p.erase_size by omega]
            exact Nat.dvd_sub hd' (Nat.dvd_refl _)
      · rcases hx with rfl | ⟨r, hr, rfl⟩
        · exact hstats
        · rw [hu] at hg hr
          have hrq : q ≤ r := by
            rcases List.mem_cons.mp hr with rfl | hr
            · exact Nat.le_refl _
            · exact Nat.le_trans (Nat.le_add_right _ _) (usableBlocks_ge hr)
          rcases List.mem_cons.mp hg with rfl | hg
          · omega
          · rcases List.mem_cons.mp hr with rfl | hr
            · exact hstats' g hg _ (.inl rfl) hxg
            · exact hstats' g hg _ (.inr ⟨r, hr, rfl⟩) hxg
    · intro h
      -- the first block is the one returned
      cases hus : usableBlocks c pos with
      | nil =>
        rw [hus] at hu
        simp at hu
      | cons g rest =>
        have hmem : g ∈ usableBlocks c pos := by rw [hus]; exact List.mem_cons_self
        have hfirst := nextBlockFrom_first hus (h.reads g hmem) (h.passes g hmem)
        obtain rfl : q = g := Option.some.inj (hfrom.symm.trans hfirst)
        have hrest := usableBlocks_cons hus
        have hin : ∀ x ∈ usableBlocks c (q + p.erase_size), x ∈ usableBlocks c pos := fun x hx => by
          rw [hus, ← hrest]
          exact List.mem_cons_of_mem _ hx
        rw [← hrest]
        refine congrArg _ (ih.mpr ⟨fun g hg => h.reads g (hin g hg), fun g hg x hx hlt hd => ?_, fun g hg x hx hxg => ?_⟩)
        · refine h.passes g (hin g hg) x (by omega) hlt ?_
          rw [show x - pos = x - (q + p.erase_size) + p.erase_size + (q - pos) by omega]
          exact Nat.dvd_add (Nat.dvd_add hd (Nat.dvd_refl _)) hdvd
        · refine h.stats g (hin g hg) x (.inr ?_) hxg
          rcases hx with rfl | ⟨r, hr, rfl⟩
          · exact ⟨q, hmem, rfl⟩
          · exact ⟨r, hin r hr, rfl⟩

/-! ## The bytes that are read -/

/-- The cells of the buffer, and those of the blocks behind them that are returned. -/
def ahead (c : Chip p) (fl : Flash p) (avail : Bytes) (fpos : Nat) : Bytes :=
  avail ++ (delivered c fpos).flatMap fun q => (fl q).val

/-- A read takes the next bytes, and fails where there are not enough. -/
theorem mtdReadData_ahead (c : Chip p) (fl : Flash p) {len : Nat} (hlen : len < 2 ^ 31) (ctx : MtdReadContext p) :
    match mtdReadData c fl len ctx with
    | none => (ahead c fl ctx.avail ctx.fpos).length < len
    | some (bs, ctx') => bs.length = len ∧
        ahead c fl ctx.avail ctx.fpos = bs ++ ahead c fl ctx'.avail ctx'.fpos := by
  have hstream := draw_stream p.erase_size_pos (readBlock c fl)
    (fun pos => (delivered c pos).flatMap fun q => (fl q).val) ?_ ?_ len ctx.avail ctx.fpos
  · have hdraw : draw p.erase_size_pos (readBlock c fl) len ctx.avail ctx.fpos =
        (mtdReadData c fl len ctx).map fun r => (r.1, r.2.avail, r.2.fpos) := mtdReadData_draw hlen ctx
    rw [hdraw] at hstream
    cases h : mtdReadData c fl len ctx with
    | none =>
      rw [h] at hstream
      exact hstream
    | some r =>
      rw [h] at hstream
      exact hstream
  · intro pos h
    rw [readBlock_next, Option.map_eq_none_iff] at h
    rw [delivered_none h, List.flatMap_nil]
  · intro pos b t h
    rw [readBlock_next, Option.map_eq_some_iff] at h
    obtain ⟨q, hq, heq⟩ := h
    cases heq
    rw [delivered_some hq, List.flatMap_cons]

/-! ## mtdutils.c -/

def BLOCK_SIZE : Nat := 2048

/-- The loop of the backup: the file, or `none` where a `write` fell short. A read that fails ends it like the end
of the partition. -/
def backupLoop (c : Chip p) (fl : Flash p) (writes : Nat → Outcome) (i : Nat) (ctx : MtdReadContext p)
    (file : Bytes) : Option Bytes :=
  match _h : mtdReadData c fl BLOCK_SIZE ctx with
  | none => some file
  | some (buf, ctx') =>
    if (writes i).full buf.length then backupLoop c fl writes (i + 1) ctx' (file ++ buf) else none
termination_by (ahead c fl ctx.avail ctx.fpos).length
decreasing_by
  have hread := mtdReadData_ahead c fl (by decide : BLOCK_SIZE < 2 ^ 31) ctx
  rw [_h] at hread
  obtain ⟨hlen, heq⟩ := hread
  rw [heq, List.length_append, hlen, BLOCK_SIZE]
  omega

/-- `cmd_mtd_backup_raw_partition` of the partition `p`: the result, and the file if there is one. `opened` tells
whether the partition, the file and the read context can be opened, and `closeOk` whether the file can be
closed. -/
def cmdMtdBackupRawPartition (c : Chip p) (opened : Bool) (writes : Nat → Outcome) (closeOk : Bool) (fl : Flash p) :
    Int × Option Bytes :=
  if opened = false then (-1, none)
  else
    match backupLoop c fl writes 0 (mtdReadPartition p) [] with
    | none => (-1, none)
    | some file => if closeOk then (0, some file) else (-1, none)

theorem backupLoop_none {writes : Nat → Outcome} {i : Nat} {ctx : MtdReadContext p} {file : Bytes}
    (h : mtdReadData c fl BLOCK_SIZE ctx = none) : backupLoop c fl writes i ctx file = some file := by
  rw [backupLoop]
  split
  · rfl
  · simp_all

theorem backupLoop_some {writes : Nat → Outcome} {i : Nat} {ctx ctx' : MtdReadContext p} {file buf : Bytes}
    (h : mtdReadData c fl BLOCK_SIZE ctx = some (buf, ctx')) : backupLoop c fl writes i ctx file =
      if (writes i).full buf.length then backupLoop c fl writes (i + 1) ctx' (file ++ buf) else none := by
  rw [backupLoop]
  split
  · simp_all
  · next buf' ctx'' h' =>
    cases h.symm.trans h'
    rfl

/-- The file has the whole chunks of what is ahead. -/
theorem backupLoop_file (c : Chip p) (fl : Flash p) (writes : Nat → Outcome) (n i : Nat) (ctx : MtdReadContext p)
    (file : Bytes) (hn : n = (ahead c fl ctx.avail ctx.fpos).length / BLOCK_SIZE) :
    ((∀ k < n, (writes (i + k)).full BLOCK_SIZE = true) → backupLoop c fl writes i ctx file =
      some (file ++ (ahead c fl ctx.avail ctx.fpos).take (n * BLOCK_SIZE))) ∧
    ((∃ k < n, (writes (i + k)).full BLOCK_SIZE = false) → backupLoop c fl writes i ctx file = none) := by
  have hsize : 0 < BLOCK_SIZE := by decide
  induction n generalizing i ctx file with
  | zero =>
    have hlt := (Nat.div_eq_zero_iff_lt hsize).mp hn.symm
    refine ⟨fun _ => ?_, fun ⟨k, hk, _⟩ => absurd hk (Nat.not_lt_zero k)⟩
    rw [Nat.zero_mul, List.take_zero, List.append_nil]
    refine backupLoop_none ?_
    have hread := mtdReadData_ahead c fl (by decide : BLOCK_SIZE < 2 ^ 31) ctx
    cases h : mtdReadData c fl BLOCK_SIZE ctx with
    | none => rfl
    | some r =>
      rw [h] at hread
      obtain ⟨hlen, heq⟩ := hread
      rw [heq, List.length_append] at hlt
      omega
  | succ n ih =>
    have hread := mtdReadData_ahead c fl (by decide : BLOCK_SIZE < 2 ^ 31) ctx
    have hge : BLOCK_SIZE ≤ (ahead c fl ctx.avail ctx.fpos).length := by
      by_contra hlt
      rw [Nat.div_eq_of_lt (by omega)] at hn
      cases hn
    cases h : mtdReadData c fl BLOCK_SIZE ctx with
    | none =>
      rw [h] at hread
      exact absurd hread (by omega)
    | some r =>
      obtain ⟨buf, ctx'⟩ := r
      rw [h] at hread
      obtain ⟨hlen, heq⟩ := hread
      have hn' : n = (ahead c fl ctx'.avail ctx'.fpos).length / BLOCK_SIZE := by
        rw [heq, List.length_append, hlen, Nat.add_div_left _ hsize] at hn
        omega
      obtain ⟨hall, hsome⟩ := ih (i + 1) ctx' (file ++ buf) hn'
      rw [backupLoop_some h, hlen]
      refine ⟨fun hw => ?_, fun ⟨k, hk, hw⟩ => ?_⟩
      · have hrest := hall fun k hk => by
          rw [Nat.add_assoc, Nat.add_comm 1 k]
          exact hw (k + 1) (by omega)
        have hfirst : (writes i).full BLOCK_SIZE = true := hw 0 (by omega)
        rw [if_pos hfirst, hrest, heq, Nat.succ_mul, Nat.add_comm, List.append_assoc, ← hlen, List.take_length_add_append]
      · cases hw0 : (writes i).full BLOCK_SIZE with
        | false => rfl
        | true =>
          obtain ⟨k, rfl⟩ : ∃ k', k = k' + 1 := by
            refine ⟨k - 1, ?_⟩
            by_contra hk0
            obtain rfl : k = 0 := by omega
            rw [Nat.add_zero, hw0] at hw
            cases hw
          rw [if_pos rfl]
          refine hsome ⟨k, by omega, ?_⟩
          rwa [Nat.add_assoc, Nat.add_comm 1 k]

theorem flatMap_blocks_length (fl : Flash p) (gs : List Nat) :
    (gs.flatMap fun q => (fl q).val).length = gs.length * p.erase_size := by
  induction gs with
  | nil => simp
  | cons g gs ih => rw [List.flatMap_cons, List.length_append, ih, (fl g).2, List.length_cons, Nat.succ_mul, Nat.add_comm]

/-- For which drivers a backup that returns 0 has the blocks without a bad mark, in order. -/
theorem backs_up_iff (c : Chip p) (opened : Bool) (writes : Nat → Outcome) (closeOk : Bool) (fl : Flash p) :
    ((cmdMtdBackupRawPartition c opened writes closeOk fl).1 = 0 →
      (cmdMtdBackupRawPartition c opened writes closeOk fl).2 =
        some ((usableBlocks c 0).flatMap fun q => (fl q).val)) ↔
    opened = false ∨ closeOk = false ∨
      (∃ k < (delivered c 0).length * p.erase_size / BLOCK_SIZE, (writes k).full BLOCK_SIZE = false) ∨
      (ReadsAll c 0 ∧ BLOCK_SIZE ∣ (usableBlocks c 0).length * p.erase_size) := by
  obtain ⟨hall, hsome⟩ := backupLoop_file c fl writes _ 0 (mtdReadPartition p) [] rfl
  simp only [Nat.zero_add] at hall hsome
  have hbytes : ahead c fl (mtdReadPartition p).avail (mtdReadPartition p).fpos =
      (delivered c 0).flatMap fun q => (fl q).val := List.nil_append _
  rw [hbytes, flatMap_blocks_length] at hall hsome
  rw [List.nil_append] at hall
  have hfail : ∀ r : Int × Option Bytes, r.1 = -1 → r.1 ≠ 0 := by
    intro r h h0
    rw [h] at h0
    cases h0
  rw [cmdMtdBackupRawPartition]
  cases opened with
  | false => exact ⟨fun _ => .inl rfl, fun _ h => absurd h (hfail _ rfl)⟩
  | true =>
    rw [if_neg (by simp)]
    by_cases hw : ∃ k < (delivered c 0).length * p.erase_size / BLOCK_SIZE, (writes k).full BLOCK_SIZE = false
    · rw [hsome hw]
      exact ⟨fun _ => .inr (.inr (.inl hw)), fun _ h => absurd h (hfail _ rfl)⟩
    · rw [hall fun k hk => by
        by_contra hno
        exact hw ⟨k, hk, eq_false_of_ne_true hno⟩]
      cases closeOk with
      | false => exact ⟨fun _ => .inr (.inl rfl), fun _ h => absurd h (hfail _ rfl)⟩
      | true =>
        simp only [↓reduceIte, true_implies, Option.some.injEq, Bool.true_eq_false, hw, false_or, ← delivered_all_iff]
        have hpos := p.erase_size_pos
        constructor
        · intro heq
          have hlen := congrArg List.length heq
          rw [List.length_take, flatMap_blocks_length, flatMap_blocks_length] at hlen
          have hsub := Nat.mul_le_mul_right p.erase_size (delivered_sublist c 0).length_le
          have hcount : (delivered c 0).length = (usableBlocks c 0).length :=
            Nat.eq_of_mul_eq_mul_right hpos (by omega)
          rw [hcount] at hlen
          have hle := Nat.div_mul_le_self ((usableBlocks c 0).length * p.erase_size) BLOCK_SIZE
          have hmul : (usableBlocks c 0).length * p.erase_size / BLOCK_SIZE * BLOCK_SIZE =
              (usableBlocks c 0).length * p.erase_size := by omega
          exact ⟨(delivered_sublist c 0).eq_of_length hcount, _, hmul.symm.trans (Nat.mul_comm _ _)⟩
        · rintro ⟨heq, hdvd⟩
          rw [heq, Nat.div_mul_cancel hdvd, ← flatMap_blocks_length fl, List.take_length]

/-- Restoring and backing up a partition: for which images and drivers a result of 0 can be relied on. -/
theorem raw_partition_iff (c : Chip p) (opened : Bool) :
    (∀ (reads : Nat → Nat) (file : Bytes),
      (∀ (giveUp erase : Nat → Block p) (fl : Flash p),
        (cmdMtdRestoreRawPartition (leaving c giveUp erase) opened reads file fl).1 = 0 →
        Stored (cmdMtdRestoreRawPartition (leaving c giveUp erase) opened reads file fl).2 (toBlocks p file)) ↔
      opened = false ∨ takes c (wholes p.erase_size_pos (freadAll BUFSIZ reads 0 file).flatten) 0 = false ∨
        takes c (toBlocks p (freadAll BUFSIZ reads 0 file).flatten) 0 = true ∧
          toBlocks p (freadAll BUFSIZ reads 0 file).flatten = toBlocks p file) ∧
    ∀ (writes : Nat → Outcome) (closeOk : Bool) (fl : Flash p),
      ((cmdMtdBackupRawPartition c opened writes closeOk fl).1 = 0 →
        (cmdMtdBackupRawPartition c opened writes closeOk fl).2 =
          some ((usableBlocks c 0).flatMap fun q => (fl q).val)) ↔
      opened = false ∨ closeOk = false ∨
        (∃ k < (delivered c 0).length * p.erase_size / BLOCK_SIZE, (writes k).full BLOCK_SIZE = false) ∨
        (ReadsAll c 0 ∧ BLOCK_SIZE ∣ (usableBlocks c 0).length * p.erase_size) :=
  ⟨fun reads file => restores_iff c opened reads file, fun writes closeOk fl =>
    backs_up_iff c opened writes closeOk fl⟩

/-- Two blocks of 4 KiB. -/
def twoBlocks : MtdPartition := { size := 8192, erase_size := 4096, erase_size_pos := by decide }

/-- A driver on which the second block cannot be erased, nor the first one be read. -/
def Chip.worn : Chip twoBlocks :=
  { Chip.quiet twoBlocks with
    attempt := fun pos r => { (Chip.quiet twoBlocks).attempt pos r with erase_ok := pos == 0 }
    read := fun pos => if pos = 0 then .error else .ok }

/-- An image one byte longer than the first block is restored with result 0, and is not on the flash; a backup with
result 0 lacks the first block. -/
theorem raw_partition_worn :
    (¬ ∀ (giveUp erase : Nat → Block twoBlocks) (fl : Flash twoBlocks),
      (cmdMtdRestoreRawPartition (leaving Chip.worn giveUp erase) true (fun _ => BUFSIZ)
        (List.replicate 4097 1) fl).1 = 0 →
      Stored (cmdMtdRestoreRawPartition (leaving Chip.worn giveUp erase) true (fun _ => BUFSIZ)
        (List.replicate 4097 1) fl).2 (toBlocks twoBlocks (List.replicate 4097 1))) ∧
    ¬ ((cmdMtdBackupRawPartition Chip.worn true (fun _ => .upTo BLOCK_SIZE) true fun _ => .fill _ 1).1 = 0 →
      (cmdMtdBackupRawPartition Chip.worn true (fun _ => .upTo BLOCK_SIZE) true fun _ => .fill _ 1).2 =
        some ((usableBlocks Chip.worn 0).flatMap fun _ => (Block.fill twoBlocks 1).val)) := by
  rw [restores_iff, backs_up_iff, freadAll_flatten (by decide) (fun _ => by decide)]
  constructor
  · rintro (h | h | ⟨h, -⟩)
    · cases h
    · revert h
      decide +kernel
    · revert h
      decide +kernel
  · rintro (h | h | ⟨k, -, h⟩ | ⟨h, -⟩)
    · cases h
    · cases h
    · revert h
      decide
    · have hmem : 0 ∈ usableBlocks Chip.worn 0 := by decide +kernel
      exact absurd (h.reads 0 hmem).2 (by decide)

end Raw

end Miui
