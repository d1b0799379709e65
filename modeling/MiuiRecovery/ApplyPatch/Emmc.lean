import MiuiRecovery.Lib.Bytes
import MiuiRecovery.Lib.Machine
import Mathlib.Data.Prod.Lex

/-!
# Writing to an EMMC partition

The branch `EMMC` of `WriteToPartition` (`applypatch.c`), one transition for each call of `write` and `read`. What is
written is read back, and what differs is written again.

* `Emmc.step`: the transitions. `Emmc.Pattern`: the results of the calls.
* `Emmc.Inv`: what has been read back. `Emmc.rank`: what remains to be done.
* `Emmc.verifies_iff`: the function ends with a verified partition or an error, unless a loop gets nothing for ever.
-/

namespace Miui.Emmc

open Machine (Progress)

/-- The result of `write`: the number of bytes, none of which are more than it was given. -/
inductive WriteResult
  | wrote (n : Nat)
  | eintr
  | error

inductive ReadResult
  | got (data : Bytes)
  | eintr
  | error

/-- The results of the calls; `write k` is the one of the `k`-th call of `write`. -/
structure Pattern where
  opens : Bool
  write : Nat → WriteResult
  read : Nat → ReadResult
  closes : Bool

/-- The place in the function. -/
inductive Pc
  /-- `for (attempt = 0; attempt < 10; ++attempt)` -/
  | attempt
  /-- `while (start < len)` -/
  | write
  /-- `for (p = 0; p < len; p += sizeof(buffer))` -/
  | verify
  /-- `while (so_far < to_read)` -/
  | read
  /-- `if (memcmp(buffer, data+p, to_read))` -/
  | compare
  /-- `if (start == len)` -/
  | check
  /-- `if (!success)` and `close` -/
  | close
  | returned (ret : Int)
  deriving DecidableEq

/-- The variables; `buffer` is what `so_far` bytes of it hold. `readBack` is all that has been read since the last
`lseek` to the start, `writes` and `reads` count the calls. -/
structure State where
  pc : Pc
  attempt : Nat
  start : Nat
  p : Nat
  buffer : Bytes
  success : Bool
  readBack : Bytes
  writes : Nat
  reads : Nat

variable (P : Pattern) (data : Bytes)

/-- What `write` adds to `start`, `none` for the error. -/
def WriteResult.count (to_write : Nat) : WriteResult → Option Nat
  | .wrote n => some (min n to_write)
  | .eintr => some 0
  | .error => none

/-- What `read` adds to the buffer. -/
def ReadResult.bytes (count : Nat) : ReadResult → Option Bytes
  | .got data => some (data.take count)
  | .eintr => some []
  | .error => none

def blockSize : Nat := 4096

def toRead (s : State) : Nat := min (data.length - s.p) blockSize

def step (s : State) : State :=
  match s.pc with
  | .attempt => if s.attempt < 10 then { s with pc := .write } else { s with pc := .close }
  | .write =>
    if s.start < data.length then
      match (P.write s.writes).count (min (data.length - s.start) blockSize) with
      | some written => { s with start := s.start + written, writes := s.writes + 1 }
      | none => { s with pc := .returned (-1), writes := s.writes + 1 }
    else { s with pc := .verify, start := data.length, p := 0, readBack := [] }
  | .verify => if s.p < data.length then { s with pc := .read, buffer := [] } else { s with pc := .check }
  | .read =>
    if s.buffer.length < toRead data s then
      match (P.read s.reads).bytes (toRead data s - s.buffer.length) with
      | some got => { s with buffer := s.buffer ++ got, readBack := s.readBack ++ got, reads := s.reads + 1 }
      | none => { s with pc := .returned (-1), reads := s.reads + 1 }
    else { s with pc := .compare }
  | .compare =>
    if s.buffer ≠ (data.drop s.p).take (toRead data s) then { s with pc := .check, start := s.p }
    else { s with pc := .verify, p := s.p + blockSize }
  | .check =>
    if s.start = data.length then { s with pc := .close, success := true }
    else { s with pc := .attempt, attempt := s.attempt + 1 }
  | .close =>
    if s.success then { s with pc := .returned (if P.closes then 0 else -1) } else { s with pc := .returned (-1) }
  | .returned _ => s

/-- The state behind `open`; `partition` is what `strtok` finds. -/
def start (partition : Option Bytes) : State :=
  let s : State := ⟨.attempt, 0, 0, 0, [], false, [], 0, 0⟩
  if partition.isNone then { s with pc := .returned (-1) }
  else if P.opens then s else { s with pc := .returned (-1) }

def run (partition : Option Bytes) (n : Nat) : State := (step P data)^[n] (start P partition)

/-! ## What is verified -/

/-- What has been read back is the start of the data. -/
def Inv (s : State) : Prop :=
  match s.pc with
  | .attempt => s.success = false ∧ s.start ≤ data.length
  | .write => s.success = false ∧ s.start ≤ data.length
  | .verify => s.success = false ∧ s.start = data.length ∧ s.readBack = data.take s.p
  | .read => s.success = false ∧ s.start = data.length ∧ s.p < data.length ∧ s.buffer.length ≤ toRead data s ∧
      s.readBack = data.take s.p ++ s.buffer
  | .compare => s.success = false ∧ s.start = data.length ∧ s.p < data.length ∧ s.buffer.length = toRead data s ∧
      s.readBack = data.take s.p ++ s.buffer
  | .check => s.success = false ∧ s.start ≤ data.length ∧ (s.start = data.length → s.readBack = data)
  | .close => s.success = true → s.readBack = data
  | .returned ret => ret = 0 → s.readBack = data

theorem inv_start (partition : Option Bytes) : Inv data (start P partition) := by
  unfold start
  cases partition <;> cases P.opens <;> simp [Inv]

variable {P data} {s : State}

theorem count_le {to_write written : Nat} {r : WriteResult} (h : r.count to_write = some written) : written ≤ to_write := by
  cases r with
  | wrote n => obtain rfl := Option.some.inj h; exact Nat.min_le_right _ _
  | eintr => obtain rfl := Option.some.inj h; exact Nat.zero_le _
  | error => cases h

theorem bytes_le {count : Nat} {got : Bytes} {r : ReadResult} (h : r.bytes count = some got) : got.length ≤ count := by
  cases r with
  | got data => obtain rfl := Option.some.inj h; exact List.length_take_le _ _
  | eintr => obtain rfl := Option.some.inj h; exact Nat.zero_le _
  | error => cases h

theorem inv_step (h : Inv data s) : Inv data (step P data s) := by
  cases hpc : s.pc with
  | attempt =>
    simp only [Inv, hpc] at h
    simp only [step, hpc]
    split
    · exact h
    · simp [Inv, h.1]
  | write =>
    simp only [Inv, hpc] at h
    simp only [step, hpc]
    split
    · cases hr : (P.write s.writes).count (min (data.length - s.start) blockSize) with
      | some written =>
        have hle := count_le hr
        simp only [Inv]
        exact ⟨h.1, by omega⟩
      | none => simp [Inv]
    · exact ⟨h.1, rfl, rfl⟩
  | verify =>
    simp only [Inv, hpc] at h
    simp only [step, hpc]
    obtain ⟨hsuccess, hstart, hread⟩ := h
    split
    · rename_i hp
      exact ⟨hsuccess, hstart, hp, Nat.zero_le _, by rw [hread, List.append_nil]⟩
    · rename_i hp
      refine ⟨hsuccess, hstart.le, fun _ => ?_⟩
      show s.readBack = data
      rw [hread, List.take_of_length_le (not_lt.mp hp)]
  | read =>
    simp only [Inv, hpc] at h
    simp only [step, hpc]
    obtain ⟨hsuccess, hstart, hp, hlen, hread⟩ := h
    split
    · cases hr : (P.read s.reads).bytes (toRead data s - s.buffer.length) with
      | some got =>
        have hle := bytes_le hr
        simp only [Inv]
        refine ⟨hsuccess, hstart, hp, ?_, by rw [hread, List.append_assoc]⟩
        show (s.buffer ++ got).length ≤ toRead data s
        rw [List.length_append]
        omega
      | none => simp [Inv]
    · exact ⟨hsuccess, hstart, hp, by show s.buffer.length = toRead data s; omega, hread⟩
  | compare =>
    simp only [Inv, hpc] at h
    simp only [step, hpc]
    obtain ⟨hsuccess, hstart, hp, hlen, hread⟩ := h
    split
    · exact ⟨hsuccess, hp.le, fun heq => absurd heq hp.ne⟩
    · rename_i hsame
      refine ⟨hsuccess, hstart, ?_⟩
      show s.readBack = data.take (s.p + blockSize)
      rw [hread, not_not.mp hsame, List.take_add]
      congr 1
      unfold toRead
      rw [List.take_eq_take_iff, List.length_drop]
      omega
  | check =>
    simp only [Inv, hpc] at h
    simp only [step, hpc]
    split
    · rename_i hall
      exact fun _ => h.2.2 hall
    · exact ⟨h.1, h.2.1⟩
  | close =>
    simp only [Inv, hpc] at h
    simp only [step, hpc]
    split
    · rename_i hsuccess
      exact fun _ => h hsuccess
    · simp [Inv]
  | returned ret =>
    simp only [step, hpc]
    exact h

/-! ## What remains to be done -/

/-- There are ten attempts. -/
def Counted (s : State) : Prop :=
  match s.pc with
  | .attempt | .close | .returned _ => True
  | _ => s.attempt < 10

theorem counted_step (h : Counted s) : Counted (step P data s) := by
  unfold step
  cases hpc : s.pc <;> simp only [Counted, hpc] at h <;> grind [Counted]

/-- A call that moves nothing, of a loop that goes on. -/
def Stalls (P : Pattern) (data : Bytes) (s : State) : Prop :=
  s.pc = .write ∧ s.start < data.length ∧
      (P.write s.writes).count (min (data.length - s.start) blockSize) = some 0 ∨
    s.pc = .read ∧ s.buffer.length < toRead data s ∧
      (P.read s.reads).bytes (toRead data s - s.buffer.length) = some []

def Ended (s : State) : Prop := ∃ ret, s.pc = .returned ret

/-- How much of an attempt is left: of the write loop, and of the blocks that are read back. -/
def left (data : Bytes) (s : State) : Nat :=
  match s.pc with
  | .attempt => 7 * data.length + 40
  | .write => 6 * data.length + 30 + (data.length - s.start)
  | .verify => 5 * (data.length - s.p) + 20
  | .read => 5 * (data.length - s.p) + 19 - s.buffer.length
  | .compare => 5 * (data.length - s.p) + 18 - toRead data s
  | .check => 10
  | .close => 1
  | .returned _ => 0

def rank (data : Bytes) (s : State) : Nat ×ₗ Nat := toLex (10 - s.attempt, left data s)

/-- A step that does not stall leaves less to be done. -/
theorem step_moves (h : Inv data s) (hcount : Counted s) (hended : ¬ Ended s) (hstall : ¬ Stalls P data s) :
    10 - (step P data s).attempt < 10 - s.attempt ∨
      10 - (step P data s).attempt = 10 - s.attempt ∧ left data (step P data s) < left data s := by
  cases hpc : s.pc with
  | attempt =>
    simp only [Inv, hpc] at h
    simp only [step, hpc]
    split <;> simp only [left, hpc, true_and] <;> omega
  | write =>
    simp only [step, hpc]
    split
    · rename_i hlt
      cases hr : (P.write s.writes).count (min (data.length - s.start) blockSize) with
      | some written =>
        have hpos : written ≠ 0 := fun h0 => hstall (.inl ⟨hpc, hlt, h0 ▸ hr⟩)
        have hle := count_le hr
        simp only [left, hpc, true_and]
        omega
      | none => simp only [left, hpc, true_and]; omega
    · simp only [left, hpc, true_and]
      omega
  | verify =>
    simp only [step, hpc]
    split
    · simp only [left, hpc, true_and, List.length_nil]
      omega
    · simp only [left, hpc, true_and]
      omega
  | read =>
    simp only [Inv, hpc] at h
    obtain ⟨-, -, hp, hlen, -⟩ := h
    have hread : toRead data s ≤ data.length - s.p := Nat.min_le_left _ _
    simp only [step, hpc]
    split
    · rename_i hlt
      cases hr : (P.read s.reads).bytes (toRead data s - s.buffer.length) with
      | some got =>
        have hpos : got ≠ [] := fun h0 => hstall (.inr ⟨hpc, hlt, h0 ▸ hr⟩)
        have hpos := List.length_pos_of_ne_nil hpos
        simp only [left, hpc, true_and, List.length_append]
        omega
      | none => simp only [left, hpc, true_and]; omega
    · have hkeep : toRead data { s with pc := .compare } = toRead data s := rfl
      simp only [left, hpc, true_and, hkeep]
      omega
  | compare =>
    simp only [Inv, hpc] at h
    obtain ⟨-, -, hp, -, -⟩ := h
    have hread : toRead data s = min (data.length - s.p) blockSize := rfl
    have hblock : blockSize = 4096 := rfl
    simp only [step, hpc]
    split
    · simp only [left, hpc, true_and]
      omega
    · simp only [left, hpc, true_and]
      omega
  | check =>
    simp only [step, hpc]
    split
    · simp only [left, hpc, true_and]
      omega
    · simp only [Counted, hpc] at hcount
      left
      show 10 - (s.attempt + 1) < 10 - s.attempt
      omega
  | close =>
    simp only [step, hpc]
    split <;> simp only [left, hpc, true_and] <;> omega
  | returned ret => exact absurd ⟨ret, hpc⟩ hended

/-- A call that moves nothing is made again. -/
theorem step_stalls (h : Stalls P data s) : rank data (step P data s) = rank data s := by
  rcases h with ⟨hpc, hlt, hr⟩ | ⟨hpc, hlt, hr⟩
  · simp only [rank, step, hpc, if_pos hlt, hr, left, Nat.add_zero]
  · simp only [rank, step, hpc, if_pos hlt, hr, left, List.append_nil]

theorem progress (P : Pattern) (data : Bytes) :
    Progress (step P data) (fun s => Inv data s ∧ Counted s) Ended (Stalls P data) (rank data) where
  keeps _ h := ⟨inv_step h.1, counted_step h.2⟩
  stays := by
    rintro s ⟨ret, hpc⟩
    exact ⟨ret, by simp only [step, hpc]⟩
  ended := by
    rintro s ⟨ret, hpc⟩ (⟨hpc', -⟩ | ⟨hpc', -⟩)
    · exact nomatch hpc.symm.trans hpc'
    · exact nomatch hpc.symm.trans hpc'
  waits _ := step_stalls
  moves s h hended hstall := by
    rw [rank, rank, Prod.Lex.toLex_lt_toLex]
    exact step_moves h.1 h.2 hended hstall

theorem start_inv (P : Pattern) (data : Bytes) (partition : Option Bytes) :
    Inv data (start P partition) ∧ Counted (start P partition) := by
  refine ⟨inv_start P data partition, ?_⟩
  unfold start
  cases partition <;> cases P.opens <;> trivial

/-- The function ends, and when it returns 0 all of the data have been read back in the last verification. -/
def Verifies (P : Pattern) (data : Bytes) (partition : Option Bytes) : Prop :=
  (∃ n ret, (run P data partition n).pc = .returned ret) ∧
    ∀ n, (run P data partition n).pc = .returned 0 → (run P data partition n).readBack = data

/-- Whatever the calls return, the data are verified, and the function ends unless from some call on it waits for a
transfer for ever. -/
theorem verifies_iff (P : Pattern) (data : Bytes) (partition : Option Bytes) :
    Verifies P data partition ↔ ¬ ∃ n, ∀ k, n ≤ k → Stalls P data (run P data partition k) := by
  have hstart := start_inv P data partition
  have hsafe (n : Nat) (hret : (run P data partition n).pc = .returned 0) : (run P data partition n).readBack = data := by
    have hinv := (Machine.invariant (progress P data).keeps hstart n).1
    unfold run at hret ⊢
    simp only [Inv, hret] at hinv
    exact hinv trivial
  exact (and_iff_left hsafe).trans ((progress P data).ends_iff hstart)

/-- Nothing can be read from the device, as from `/dev/null`. -/
def endOfFile : Pattern := ⟨true, fun _ => .wrote 4096, fun _ => .got [], true⟩

/-- One byte is written, and read back for ever. -/
theorem not_verifies_endOfFile : ¬ Verifies endOfFile [7] (some (Bytes.ascii "/dev/null")) := by
  rintro ⟨⟨n, ret, hret⟩, -⟩
  have hkeeps (s : State) (h : s.pc = .read ∧ s.p = 0 ∧ s.buffer = []) :
      (step endOfFile [7] s).pc = .read ∧ (step endOfFile [7] s).p = 0 ∧ (step endOfFile [7] s).buffer = [] := by
    obtain ⟨hpc, hp, hbuffer⟩ := h
    simp [step, hpc, hp, hbuffer, toRead, blockSize, endOfFile, ReadResult.bytes]
  have hwaits := Machine.invariant hkeeps
    (show (run endOfFile [7] (some (Bytes.ascii "/dev/null")) 4).pc = .read ∧
      (run endOfFile [7] (some (Bytes.ascii "/dev/null")) 4).p = 0 ∧
      (run endOfFile [7] (some (Bytes.ascii "/dev/null")) 4).buffer = [] by decide) n
  obtain ⟨ret', hret'⟩ := Machine.invariant (progress endOfFile [7]).stays ⟨ret, hret⟩ 4
  unfold run at hwaits hret'
  rw [← Function.iterate_add_apply, Nat.add_comm] at hret'
  rw [← Function.iterate_add_apply] at hwaits
  exact nomatch hret'.symm.trans hwaits.1

end Miui.Emmc
