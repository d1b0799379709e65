import MiuiRecovery.Lib.Transfer

/-!
# Raw copies

The helpers that copy an image to a partition or back: `restore_internal` (`bmlutils.c`), `mmc_raw_copy` and
`mmc_raw_dump_internal` (`mmcutils.c`). All of them end, since each round takes bytes of the source or is the last
one; what a result of 0 is worth depends on the reads and writes.

* `restoreLoop_iff`: a read error makes `restore_internal` write before its buffer, and a short read makes it stop.
* `copyFile_iff`: the two copies of one loop do not see a flush that fails, and one of its branches no read that
  fails.
* `raw_copies_iff`: the three together.
-/

namespace Miui

namespace Copy

open Transfer

/-! ## bmlutils.c -/

/-- The loop of `restore_internal`: the result and what is on the destination. `none` stands for
`memset(&buf[-1], 0, 4097)`, which is what a read that returns `-1` leads to. -/
def restoreLoop (reads writes : Nat → Outcome) (i : Nat) (src dst : Bytes) : Option (Int × Bytes) :=
  match (reads i).moved 4096 with
  | none => none
  | some n =>
    let bytes := src.take n
    if _h : bytes = [] then some (0, dst)
    else
      let buf := bytes ++ List.replicate (4096 - bytes.length) 0
      if (writes i).full 4096 then
        if bytes.length = 4096 then restoreLoop reads writes (i + 1) (src.drop n) (dst ++ buf)
        else some (0, dst ++ buf)
      else some (5, dst ++ buf.take (((writes i).moved 4096).getD 0))
termination_by src.length
decreasing_by
  have hne : src.take n ≠ [] := _h
  have hsrc : 0 < src.length := List.length_pos_iff.mpr fun h => hne (by rw [h, List.take_nil])
  have hn : 0 < n := by
    by_contra h0
    obtain rfl : n = 0 := by omega
    exact hne List.take_zero
  rw [List.length_drop]
  omega

/-- `restore_internal`: the three steps before the loop, and the loop. -/
def restoreInternal (srcOpen dstOpen unlocked : Bool) (reads writes : Nat → Outcome) (src : Bytes) :
    Option (Int × Bytes) :=
  if srcOpen = false then some (2, [])
  else if dstOpen = false then some (3, [])
  else if unlocked = false then some (4, [])
  else restoreLoop reads writes 0 src []

/-! ## mmcutils.c -/

/-- `sz = ftell(in)` at the end of the file: `-1` where it cannot be told in a `long`. -/
def tell (seekable : Bool) (src : Bytes) : Nat :=
  if seekable = true ∧ src.length < 2 ^ 31 then src.length else 2 ^ 32 - 1

/-- `for (i=0; i< (sz/512); i++)`: `input` is what the reads of the stream still deliver. -/
def blockLoop (writes : Nat → Outcome) : Nat → Bytes → OutFile → Bool × OutFile
  | 0, _, out => (true, out)
  | n + 1, input, out =>
    if input.length < 512 then (false, out)
    else
      match fwrite BUFSIZ writes (input.take 512) out with
      | (false, out) => (false, out)
      | (true, out) => blockLoop writes n (input.drop 512) out

/-- The copy that `mmc_raw_copy` and `mmc_raw_dump_internal` both make: the result and the destination. -/
def copyFile (opened seekable : Bool) (reads : Nat → Nat) (writes : Nat → Outcome) (src : Bytes) : Int × Bytes :=
  if opened = false then (-1, [])
  else
    let input := (freadAll BUFSIZ reads 0 src).flatten
    let sz := tell seekable src
    if sz % 512 ≠ 0 then
      -- fgetc and fputc; what fputc returns is not looked at
      (0, ((fputs BUFSIZ writes input .opened).close writes).2)
    else
      -- fsync is given the stream for a descriptor, and does nothing
      let copied := blockLoop writes (sz / 512) input .opened
      (if copied.1 then 0 else -1, (copied.2.close writes).2)

/-- `mmc_raw_copy`: the file `in_file` to the device of the partition. -/
def mmcRawCopy (opened seekable : Bool) (reads : Nat → Nat) (writes : Nat → Outcome) (in_file : Bytes) :
    Int × Bytes := copyFile opened seekable reads writes in_file

/-- `mmc_raw_dump_internal`: the device `in_file` to a file. -/
def mmcRawDumpInternal (opened seekable : Bool) (reads : Nat → Nat) (writes : Nat → Outcome) (in_file : Bytes) :
    Int × Bytes := copyFile opened seekable reads writes in_file

/-! ## Restoring -/

/-- The bytes with zeros up to a whole block. -/
def padded (xs : Bytes) : Bytes := xs ++ List.replicate ((4096 - xs.length % 4096) % 4096) 0

@[simp] theorem padded_nil : padded [] = [] := rfl

theorem padded_block {xs : Bytes} (h : xs.length = 4096) (ys : Bytes) : padded (xs ++ ys) = xs ++ padded ys := by
  rw [padded, padded, List.length_append, h, Nat.add_mod_left, List.append_assoc]

theorem padded_short {xs : Bytes} (hpos : 0 < xs.length) (h : xs.length ≤ 4096) :
    padded xs = xs ++ List.replicate (4096 - xs.length) 0 := by
  rw [padded]
  rcases Nat.lt_or_eq_of_le h with hlt | heq
  · rw [Nat.mod_eq_of_lt hlt, Nat.mod_eq_of_lt (by omega)]
  · simp [heq]

theorem padded_length_ge (xs : Bytes) : xs.length ≤ (padded xs).length := by
  rw [padded, List.length_append]
  omega

/-- The first `n` bytes, padded, are the bytes padded exactly if zeros of the padding are all that is missing. -/
theorem padded_take {xs : Bytes} {n : Nat} (hne : xs.take n ≠ []) (hn : n ≤ 4096) :
    xs.take n ++ List.replicate (4096 - (xs.take n).length) 0 = padded xs ↔
      xs.length ≤ 4096 ∧ ∀ b ∈ xs.drop n, b = 0 := by
  have hpos := List.length_pos_iff.mpr hne
  have htake : (xs.take n).length ≤ 4096 := by
    rw [List.length_take]
    omega
  constructor
  · intro heq
    have hlen := congrArg List.length heq
    rw [List.length_append, List.length_replicate] at hlen
    have hle := padded_length_ge xs
    have hshort : xs.length ≤ 4096 := by omega
    refine ⟨hshort, ?_⟩
    have hxs : padded xs = xs.take n ++ (xs.drop n ++ List.replicate (4096 - xs.length) 0) := by
      rw [padded_short (by rw [List.length_take] at hpos; omega) hshort, ← List.append_assoc, List.take_append_drop]
    rw [hxs] at heq
    intro b hb
    have hmem : b ∈ List.replicate (4096 - (xs.take n).length) (0 : UInt8) := by
      rw [List.append_cancel_left heq]
      exact List.mem_append_left _ hb
    exact List.eq_of_mem_replicate hmem
  · rintro ⟨hshort, hzero⟩
    have hdrop : xs.drop n = List.replicate (xs.length - (xs.take n).length) 0 := by
      refine List.eq_replicate_iff.mpr ⟨?_, hzero⟩
      rw [List.length_drop, List.length_take]
      omega
    have hsplit : xs ++ List.replicate (4096 - xs.length) 0 =
        xs.take n ++ (xs.drop n ++ List.replicate (4096 - xs.length) 0) := by
      rw [← List.append_assoc, List.take_append_drop]
    rw [padded_short (by rw [List.length_take] at hpos; omega) hshort, hsplit, hdrop, List.append_cancel_left_eq,
      List.replicate_append_replicate]
    congr 1
    rw [List.length_take] at htake ⊢
    omega

/-- The round reads and writes a whole block. -/
def FullRound (read write : Outcome) (rest : Bytes) : Prop :=
  read.moved 4096 = some 4096 ∧ 4096 ≤ rest.length ∧ write.full 4096 = true

/-- What a round after full ones may meet: no read error; no end of the source before it is there; and no short
read, unless the write fails or only zeros up to the end of the block are missing. -/
def RoundOk (read write : Outcome) (rest : Bytes) : Prop :=
  ∃ n, read.moved 4096 = some n ∧ (rest.take n = [] → rest = []) ∧
    (rest.take n ≠ [] → (rest.take n).length < 4096 → write.full 4096 = true →
      rest.length ≤ 4096 ∧ ∀ b ∈ rest.drop n, b = 0)

/-- Every round after full ones is `P`. -/
def Rounds (P : Outcome → Outcome → Bytes → Prop) (reads writes : Nat → Outcome) (i : Nat) (src : Bytes) : Prop :=
  ∀ k, (∀ j < k, FullRound (reads (i + j)) (writes (i + j)) (src.drop (j * 4096))) →
    P (reads (i + k)) (writes (i + k)) (src.drop (k * 4096))

theorem rounds_iff {P : Outcome → Outcome → Bytes → Prop} {reads writes : Nat → Outcome} {i : Nat} {src : Bytes} :
    Rounds P reads writes i src ↔ P (reads i) (writes i) src ∧
      (FullRound (reads i) (writes i) src → Rounds P reads writes (i + 1) (src.drop 4096)) := by
  have hdrop : ∀ j, (src.drop 4096).drop (j * 4096) = src.drop ((j + 1) * 4096) := fun j => by
    rw [List.drop_drop, Nat.succ_mul, Nat.add_comm]
  have hnext : ∀ j, i + 1 + j = i + (j + 1) := fun j => by omega
  simp only [Rounds, hdrop, hnext]
  constructor
  · intro h
    refine ⟨by simpa using h 0 (by simp), fun hfull k hk => h (k + 1) fun j hj => ?_⟩
    match j with
    | 0 => simpa using hfull
    | j + 1 => exact hk j (by omega)
  · rintro ⟨h0, hrest⟩ k hk
    match k with
    | 0 => simpa using h0
    | k + 1 => exact hrest (by simpa using hk 0 (by omega)) k fun j hj => hk (j + 1) (by omega)

/-- The last round. -/
theorem rounds_last {P : Outcome → Outcome → Bytes → Prop} {reads writes : Nat → Outcome} {i : Nat} {src : Bytes}
    (h : ¬ FullRound (reads i) (writes i) src) : Rounds P reads writes i src ↔ P (reads i) (writes i) src := by
  rw [rounds_iff]
  exact ⟨fun hr => hr.1, fun hr => ⟨hr, fun hf => absurd hf h⟩⟩

theorem not_fullRound_of_empty {read : Outcome} (write : Outcome) {rest : Bytes} {n : Nat} (hread : read.moved 4096 = some n)
    (h : rest.take n = []) : ¬ FullRound read write rest := by
  rintro ⟨hr, hlen, -⟩
  obtain rfl := Option.some.inj (hread.symm.trans hr)
  have := congrArg List.length h
  rw [List.length_take, List.length_nil] at this
  omega

theorem not_fullRound_of_short {read : Outcome} (write : Outcome) {rest : Bytes} {n : Nat} (hread : read.moved 4096 = some n)
    (h : (rest.take n).length ≠ 4096) : ¬ FullRound read write rest := by
  rintro ⟨hr, hge, -⟩
  obtain rfl := Option.some.inj (hread.symm.trans hr)
  exact h (by rw [List.length_take]; omega)

theorem fullRound_of_length {read write : Outcome} {rest : Bytes} {n : Nat} (hread : read.moved 4096 = some n)
    (h : (rest.take n).length = 4096) (hwrite : write.full 4096 = true) : n = 4096 ∧ FullRound read write rest := by
  have hle := Outcome.moved_le hread
  rw [List.length_take] at h
  obtain rfl : n = 4096 := by omega
  exact ⟨rfl, hread, by omega, hwrite⟩

theorem restoreLoop_iff (reads writes : Nat → Outcome) (i : Nat) (src dst : Bytes) :
    (∃ ret out, restoreLoop reads writes i src dst = some (ret, out) ∧ (ret = 0 → out = dst ++ padded src)) ↔
    Rounds RoundOk reads writes i src := by
  fun_induction restoreLoop reads writes i src dst with
  | case1 i src dst hread =>
    rw [rounds_iff]
    refine ⟨fun ⟨ret, out, h, _⟩ => (by cases h), fun ⟨⟨n, hn, _⟩, _⟩ => ?_⟩
    cases hread.symm.trans hn
  | case2 i src dst n hread bytes h =>
    have htake : src.take n = [] := h
    rw [rounds_last (not_fullRound_of_empty (writes i) hread htake)]
    constructor
    · rintro ⟨ret, out, heq, hout⟩
      cases heq
      refine ⟨n, hread, fun _ => ?_, fun hne => absurd htake hne⟩
      have hpad := congrArg List.length (hout rfl)
      rw [List.length_append] at hpad
      have := padded_length_ge src
      exact List.eq_nil_of_length_eq_zero (by omega)
    · rintro ⟨n', hn', hend, -⟩
      obtain rfl := Option.some.inj (hread.symm.trans hn')
      rw [hend htake]
      exact ⟨0, dst, rfl, fun _ => (List.append_nil dst).symm⟩
  | case3 i src dst n hread bytes h buf hwrite hlen ih =>
    have hlen' : (src.take n).length = 4096 := hlen
    obtain ⟨rfl, hfull⟩ := fullRound_of_length hread hlen' hwrite
    have hbuf : buf = bytes := by
      simp only [buf]
      rw [hlen, Nat.sub_self, List.replicate_zero, List.append_nil]
    have hsrc : dst ++ padded src = dst ++ buf ++ padded (src.drop 4096) := by
      conv_lhs => rw [← List.take_append_drop 4096 src]
      rw [padded_block hlen', hbuf, List.append_assoc]
    rw [hsrc, ih, rounds_iff (i := i)]
    exact ⟨fun hrest => ⟨⟨4096, hread, fun hnil => absurd hnil h, fun _ hlt => absurd hlt (by omega)⟩,
      fun _ => hrest⟩, fun hrest => hrest.2 hfull⟩
  | case4 i src dst n hread bytes h buf hwrite hlen =>
    have hle := Outcome.moved_le hread
    have hshort : (src.take n).length < 4096 := by
      have hne : (src.take n).length ≠ 4096 := hlen
      rw [List.length_take] at hne ⊢
      omega
    rw [rounds_last (not_fullRound_of_short (writes i) hread hlen)]
    constructor
    · rintro ⟨ret, out, heq, hout⟩
      cases heq
      have hpad := (padded_take h hle).mp (List.append_cancel_left (hout rfl))
      exact ⟨n, hread, fun hnil => absurd hnil h, fun _ _ _ => hpad⟩
    · rintro ⟨n', hn', -, hpad⟩
      obtain rfl := Option.some.inj (hread.symm.trans hn')
      refine ⟨0, dst ++ buf, rfl, fun _ => ?_⟩
      rw [← (padded_take h hle).mpr (hpad h hshort hwrite)]
  | case5 i src dst n hread bytes h buf hwrite =>
    rw [rounds_last fun hf => hwrite hf.2.2]
    refine ⟨fun _ => ⟨n, hread, fun hnil => absurd hnil h, fun _ _ hw => absurd hw hwrite⟩,
      fun _ => ⟨5, _, rfl, fun h5 => ?_⟩⟩
    cases h5

/-- `restore_internal` ends with a result, and a result of 0 tells that the source is on the destination, padded. -/
def Restores (r : Option (Int × Bytes)) (src : Bytes) : Prop :=
  ∃ ret dst, r = some (ret, dst) ∧ (ret = 0 → dst = padded src)

theorem restoreInternal_iff (srcOpen dstOpen unlocked : Bool) (reads writes : Nat → Outcome) (src : Bytes) :
    Restores (restoreInternal srcOpen dstOpen unlocked reads writes src) src ↔
      srcOpen = false ∨ dstOpen = false ∨ unlocked = false ∨
        ∀ k, (∀ j < k, FullRound (reads j) (writes j) (src.drop (j * 4096))) →
          RoundOk (reads k) (writes k) (src.drop (k * 4096)) := by
  have hfail : ∀ ret : Int, ret ≠ 0 → Restores (some (ret, [])) src := fun ret h =>
    ⟨ret, [], rfl, fun h0 => absurd h0 h⟩
  rw [restoreInternal]
  by_cases hs : srcOpen = false
  · simp [hs, hfail 2 (by decide)]
  by_cases hd : dstOpen = false
  · simp [hs, hd, hfail 3 (by decide)]
  by_cases hu : unlocked = false
  · simp [hs, hd, hu, hfail 4 (by decide)]
  rw [if_neg hs, if_neg hd, if_neg hu]
  have hloop := restoreLoop_iff reads writes 0 src []
  simp only [Rounds, Nat.zero_add, List.nil_append] at hloop
  simp only [hs, hd, hu, Bool.true_eq_false, false_or]
  exact hloop

/-- No read of the round fails. -/
def ReadOk (read _write : Outcome) (_rest : Bytes) : Prop := read.moved 4096 ≠ none

/-- What the round reads, it writes. -/
def WriteOk (read write : Outcome) (rest : Bytes) : Prop :=
  ∀ n, read.moved 4096 = some n → rest.take n ≠ [] → write.full 4096 = true

/-- The result is 0 where no write falls short, whatever is on the destination. -/
theorem restoreLoop_ret (reads writes : Nat → Outcome) (i : Nat) (src dst : Bytes) (Q : Prop) :
    (∃ ret out, restoreLoop reads writes i src dst = some (ret, out) ∧ (ret = 0 → Q)) ↔
    Rounds ReadOk reads writes i src ∧ (Rounds WriteOk reads writes i src → Q) := by
  fun_induction restoreLoop reads writes i src dst with
  | case1 i src dst hread =>
    rw [rounds_iff]
    exact ⟨fun ⟨ret, out, h, _⟩ => (by cases h), fun h => absurd hread h.1.1⟩
  | case2 i src dst n hread bytes h =>
    have hlast := not_fullRound_of_empty (writes i) hread h
    have hread' : ReadOk (reads i) (writes i) src := by simp [ReadOk, hread]
    rw [rounds_last hlast, rounds_last hlast]
    constructor
    · rintro ⟨ret, out, heq, hout⟩
      cases heq
      exact ⟨hread', fun _ => hout rfl⟩
    · rintro ⟨-, hQ⟩
      refine ⟨0, dst, rfl, fun _ => hQ fun n' hn' hne => absurd ?_ hne⟩
      rw [← Option.some.inj (hread.symm.trans hn')]
      exact h
  | case3 i src dst n hread bytes h buf hwrite hlen ih =>
    obtain ⟨rfl, hfull⟩ := fullRound_of_length hread hlen hwrite
    have hread' : ReadOk (reads i) (writes i) src := by simp [ReadOk, hread]
    have hwrite' : WriteOk (reads i) (writes i) src := fun _ _ _ => hwrite
    rw [ih, rounds_iff (i := i), rounds_iff (i := i)]
    simp only [hread', hwrite', hfull, true_and, true_implies]
  | case4 i src dst n hread bytes h buf hwrite hlen =>
    have hlast := not_fullRound_of_short (writes i) hread hlen
    have hread' : ReadOk (reads i) (writes i) src := by simp [ReadOk, hread]
    rw [rounds_last hlast, rounds_last hlast]
    constructor
    · rintro ⟨ret, out, heq, hout⟩
      cases heq
      exact ⟨hread', fun _ => hout rfl⟩
    · rintro ⟨-, hQ⟩
      exact ⟨0, _, rfl, fun _ => hQ fun _ _ _ => hwrite⟩
  | case5 i src dst n hread bytes h buf hwrite =>
    have hlast : ¬ FullRound (reads i) (writes i) src := fun hf => hwrite hf.2.2
    rw [rounds_last hlast, rounds_last hlast]
    refine ⟨fun _ => ⟨by simp [ReadOk, hread], fun hw => absurd (hw n hread h) hwrite⟩,
      fun _ => ⟨5, _, rfl, fun h5 => ?_⟩⟩
    cases h5

theorem restoreInternal_ret (srcOpen dstOpen unlocked : Bool) (reads writes : Nat → Outcome) (src : Bytes)
    (Q : Prop) :
    (∃ ret out, restoreInternal srcOpen dstOpen unlocked reads writes src = some (ret, out) ∧ (ret = 0 → Q)) ↔
      srcOpen = false ∨ dstOpen = false ∨ unlocked = false ∨
        (Rounds ReadOk reads writes 0 src ∧ (Rounds WriteOk reads writes 0 src → Q)) := by
  have hfail : ∀ k : Int, k ≠ 0 → ∃ ret out, some (k, ([] : Bytes)) = some (ret, out) ∧ (ret = 0 → Q) := fun k h =>
    ⟨k, [], rfl, fun h0 => absurd h0 h⟩
  rw [restoreInternal]
  by_cases hs : srcOpen = false
  · rw [if_pos hs]
    exact ⟨fun _ => .inl hs, fun _ => hfail 2 (by decide)⟩
  by_cases hd : dstOpen = false
  · rw [if_neg hs, if_pos hd]
    exact ⟨fun _ => .inr (.inl hd), fun _ => hfail 3 (by decide)⟩
  by_cases hu : unlocked = false
  · rw [if_neg hs, if_neg hd, if_pos hu]
    exact ⟨fun _ => .inr (.inr (.inl hu)), fun _ => hfail 4 (by decide)⟩
  rw [if_neg hs, if_neg hd, if_neg hu, restoreLoop_ret]
  simp only [hs, hd, hu, Bool.true_eq_false, false_or]

/-! ## Copying -/

theorem fwrite_append (writes : Nat → Outcome) (xs ys : Bytes) (f : OutFile) :
    fwrite BUFSIZ writes (xs ++ ys) f =
      match fwrite BUFSIZ writes xs f with
      | (false, f) => (false, f)
      | (true, f) => fwrite BUFSIZ writes ys f := by
  induction xs generalizing f with
  | nil => rfl
  | cons ch xs ih =>
    rw [List.cons_append, fwrite, fwrite]
    cases fputc BUFSIZ writes ch f with
    | mk ok g =>
      cases ok with
      | false => rfl
      | true => exact ih g

/-- The blocks are written one behind the other, as long as the reads deliver them. -/
theorem blockLoop_eq (writes : Nat → Outcome) (n : Nat) (input : Bytes) (out : OutFile) :
    (n * 512 ≤ input.length → blockLoop writes n input out = fwrite BUFSIZ writes (input.take (n * 512)) out) ∧
    (input.length < n * 512 → (blockLoop writes n input out).1 = false) := by
  induction n generalizing input out with
  | zero => exact ⟨fun _ => by simp [blockLoop, fwrite], fun h => absurd h (by omega)⟩
  | succ n ih =>
    rw [blockLoop, Nat.succ_mul]
    by_cases hlt : input.length < 512
    · rw [if_pos hlt]
      exact ⟨fun h => absurd h (by omega), fun _ => rfl⟩
    · rw [if_neg hlt, Nat.add_comm, List.take_add, fwrite_append]
      cases fwrite BUFSIZ writes (input.take 512) out with
      | mk ok g =>
        cases ok with
        | false => exact ⟨fun _ => rfl, fun _ => rfl⟩
        | true =>
          obtain ⟨hlong, hshort⟩ := ih (input.drop 512) g
          rw [List.length_drop] at hlong hshort
          exact ⟨fun h => hlong (by omega), fun h => hshort (by omega)⟩

/-- When a copy that returns 0 has copied the source: byte by byte, if all of it is read and flushed; block by block,
if the reads fall short, or a flush but the last does, or all of them are complete. -/
theorem copyFile_iff (opened seekable : Bool) (reads : Nat → Nat) (writes : Nat → Outcome) (src : Bytes) :
    ((copyFile opened seekable reads writes src).1 = 0 → (copyFile opened seekable reads writes src).2 = src) ↔
      opened = false ∨
      (tell seekable src % 512 ≠ 0 ∧ (freadAll BUFSIZ reads 0 src).flatten = src ∧
        Flushed BUFSIZ writes 0 src.length) ∨
      (tell seekable src % 512 = 0 ∧ ((freadAll BUFSIZ reads 0 src).flatten ≠ src ∨
        ¬ FlushedFull BUFSIZ writes 0 src.length ∨ Flushed BUFSIZ writes 0 src.length)) := by
  have hsize : 0 < BUFSIZ := by decide
  have hstart := freadAll_start BUFSIZ reads 0 src
  have hfail : ¬ (-1 : Int) = 0 := by decide
  rw [copyFile]
  cases opened with
  | false => exact ⟨fun _ => .inl rfl, fun _ h => absurd h hfail⟩
  | true =>
    rw [if_neg (by simp)]
    simp only [Bool.true_eq_false, false_or]
    generalize (freadAll BUFSIZ reads 0 src).flatten = input at *
    have hclose := fputs_close writes hsize input .opened (Nat.zero_le _)
    simp only [OutFile.opened_file, OutFile.opened_buffer, OutFile.opened_flushes, List.nil_append, List.length_nil,
      Nat.zero_add] at hclose
    obtain ⟨hle, hall, hlen⟩ := hclose
    by_cases hsz : tell seekable src % 512 = 0
    · rw [if_neg (not_not_intro hsz)]
      have htell : tell seekable src = src.length := by
        unfold tell at hsz ⊢
        split
        · rfl
        · next hno => exact absurd hsz (by rw [if_neg hno]; decide)
      have hmul : tell seekable src / 512 * 512 = src.length := by omega
      obtain ⟨hlong, hshort⟩ := blockLoop_eq writes (tell seekable src / 512) input .opened
      rw [hmul] at hlong hshort
      simp only [hsz, ne_eq, not_true_eq_false, false_and, true_and, false_or]
      by_cases hinput : input = src
      · subst hinput
        obtain ⟨hiff, hsame⟩ := fwrite_true writes hsize input .opened (Nat.zero_le _)
        rw [hlong (Nat.le_refl _), List.take_length]
        by_cases hfull : FlushedFull BUFSIZ writes 0 input.length
        · have htrue := hiff.mpr hfull
          rw [if_pos htrue, hsame htrue]
          constructor
          · intro heq
            exact .inr (.inr (hlen (Nat.le_of_eq (congrArg _ (heq rfl).symm))))
          · rintro (hne | hno | hflushed) _
            · exact absurd rfl hne
            · exact absurd hfull hno
            · exact hall hflushed
        · rw [if_neg fun h => hfull (hiff.mp h)]
          exact ⟨fun _ => .inr (.inl hfull), fun _ h => absurd h hfail⟩
      · have hlt : input.length < src.length :=
          Nat.lt_of_le_of_ne hstart.length_le fun heq => hinput (hstart.eq_of_length heq)
        rw [hshort hlt, if_neg (by decide)]
        exact ⟨fun _ => .inl hinput, fun _ h => absurd h hfail⟩
    · rw [if_pos hsz]
      simp only [hsz, ne_eq, not_false_eq_true, false_and, true_and, or_false, true_implies]
      constructor
      · intro heq
        rw [heq] at hle hlen
        obtain rfl := hstart.eq_of_length (Nat.le_antisymm hstart.length_le hle)
        exact ⟨rfl, hlen (Nat.le_refl _)⟩
      · rintro ⟨rfl, hflushed⟩
        exact hall hflushed

/-- The three copies: for which reads and writes a result of 0 can be relied on. -/
theorem raw_copies_iff (writes : Nat → Outcome) (src : Bytes) :
    (∀ (srcOpen dstOpen unlocked : Bool) (reads : Nat → Outcome),
      Restores (restoreInternal srcOpen dstOpen unlocked reads writes src) src ↔
        srcOpen = false ∨ dstOpen = false ∨ unlocked = false ∨
          ∀ k, (∀ j < k, FullRound (reads j) (writes j) (src.drop (j * 4096))) →
            RoundOk (reads k) (writes k) (src.drop (k * 4096))) ∧
    ∀ copy ∈ [mmcRawCopy, mmcRawDumpInternal],
      ∀ (opened seekable : Bool) (reads : Nat → Nat),
        ((copy opened seekable reads writes src).1 = 0 → (copy opened seekable reads writes src).2 = src) ↔
          opened = false ∨
          (tell seekable src % 512 ≠ 0 ∧ (freadAll BUFSIZ reads 0 src).flatten = src ∧
            Flushed BUFSIZ writes 0 src.length) ∨
          (tell seekable src % 512 = 0 ∧ ((freadAll BUFSIZ reads 0 src).flatten ≠ src ∨
            ¬ FlushedFull BUFSIZ writes 0 src.length ∨ Flushed BUFSIZ writes 0 src.length)) := by
  refine ⟨fun srcOpen dstOpen unlocked reads => restoreInternal_iff srcOpen dstOpen unlocked reads writes src,
    fun copy hcopy opened seekable reads => ?_⟩
  simp only [List.mem_cons, List.not_mem_nil, or_false] at hcopy
  rcases hcopy with rfl | rfl <;> exact copyFile_iff opened seekable reads writes src

/-- A read error at once; a short read of a whole block; and two blocks of which only the last flush fails. -/
theorem raw_copies_failing :
    ¬ Restores (restoreInternal true true true (fun _ => .error) (fun _ => .upTo 4096) [1]) [1] ∧
    ¬ Restores (restoreInternal true true true (fun _ => .upTo 1) (fun _ => .upTo 4096) [1, 2]) [1, 2] ∧
    ¬ ((mmcRawCopy true true (fun _ => BUFSIZ) (fun _ => .error) [1]).1 = 0 →
      (mmcRawCopy true true (fun _ => BUFSIZ) (fun _ => .error) [1]).2 = [1]) ∧
    ¬ ((mmcRawDumpInternal true true (fun _ => BUFSIZ) (fun _ => .error) (List.replicate 512 1)).1 = 0 →
      (mmcRawDumpInternal true true (fun _ => BUFSIZ) (fun _ => .error) (List.replicate 512 1)).2 =
        List.replicate 512 1) := by
  rw [restoreInternal_iff, restoreInternal_iff]
  refine ⟨?_, ?_, ?_, ?_⟩
  · rintro (h | h | h | h)
    · cases h
    · cases h
    · cases h
    · obtain ⟨n, hn, -⟩ := h 0 fun j hj => absurd hj (Nat.not_lt_zero j)
      cases hn
  · rintro (h | h | h | h)
    · cases h
    · cases h
    · cases h
    · obtain ⟨n, hn, -, hshort⟩ := h 0 fun j hj => absurd hj (Nat.not_lt_zero j)
      obtain rfl : n = 1 := (Option.some.inj hn).symm
      obtain ⟨-, hzero⟩ := hshort (by decide) (by decide) (by decide)
      exact absurd (hzero 2 (by decide)) (by decide)
  · decide +kernel
  · decide +kernel

end Copy

end Miui
