import MiuiRecovery.Lib.Bytes
import Mathlib.Tactic.Common

/-!
# Transfers that fall short

`read` and `write` calls, and the `stdio.h` calls above them: each can fail, and each can move fewer bytes than
it was asked for. What the calls of a run answer is given by their number.

* `Outcome.moved`: how many bytes a call moves.
* `freadAll`: a loop of `fread` calls up to the first that returns nothing, and `freadAll_start`: what they
  return is the beginning of the file.
* `OutFile`: a stream with a buffer. `fputs_close`: the bytes put on it are in the file exactly if every flush is
  complete, the one at the close included; `fwrite_true`: the calls themselves only tell of the others.
-/

namespace Transfer

/-- The buffer of a stream. -/
def BUFSIZ : Nat := 1024

/-- What a call answers: an error, or at most `n` bytes. -/
inductive Outcome
  | error
  | upTo (n : Nat)
deriving DecidableEq

/-- How many of `want` bytes are moved, or `none` for `-1`. -/
def Outcome.moved (o : Outcome) (want : Nat) : Option Nat :=
  match o with
  | error => none
  | upTo n => some (min n want)

/-- The call moves all of `want` bytes. -/
def Outcome.full (o : Outcome) (want : Nat) : Bool := o.moved want == some want

theorem Outcome.full_iff {o : Outcome} {want : Nat} : o.full want = true ↔ o.moved want = some want := by
  simp [full]

theorem Outcome.moved_le {o : Outcome} {want n : Nat} (h : o.moved want = some n) : n ≤ want := by
  cases o with
  | error => cases h
  | upTo k =>
    obtain rfl := Option.some.inj h
    exact Nat.min_le_right _ _

/-- `while ((read = fread(buffer, 1, size, f)) > 0)`: what the calls return, where call `i` returns at most
`reads i` bytes; an error is a call that returns none. -/
def freadAll (size : Nat) (reads : Nat → Nat) (i : Nat) (file : Bytes) : List Bytes :=
  if min (reads i) (min size file.length) = 0 then []
  else file.take (min (reads i) size) :: freadAll size reads (i + 1) (file.drop (min (reads i) size))
termination_by file.length
decreasing_by
  rw [List.length_drop]
  omega

theorem freadAll_start (size : Nat) (reads : Nat → Nat) (i : Nat) (file : Bytes) :
    (freadAll size reads i file).flatten <+: file := by
  fun_induction freadAll size reads i file with
  | case1 => exact List.nil_prefix
  | case2 i file h ih =>
    obtain ⟨rest, hrest⟩ := ih
    refine ⟨rest, ?_⟩
    rw [List.flatten_cons, List.append_assoc, hrest, List.take_append_drop]

/-- Reads that do not fail return the file. -/
theorem freadAll_flatten {size : Nat} (hsize : 0 < size) {reads : Nat → Nat} (h : ∀ i, 0 < reads i) (i : Nat)
    (file : Bytes) : (freadAll size reads i file).flatten = file := by
  fun_induction freadAll size reads i file with
  | case1 i file h0 =>
    have := h i
    have hlen : file.length = 0 := by omega
    rw [List.flatten_nil, List.eq_nil_of_length_eq_zero hlen]
  | case2 i file h0 ih => rw [List.flatten_cons, ih, List.take_append_drop]

/-! ## Output streams -/

/-- A stream: what its file holds, what its buffer holds, and how often it was flushed. -/
structure OutFile where
  file : Bytes
  buffer : Bytes
  flushes : Nat

/-- `fopen(.., "w")`. -/
def OutFile.opened : OutFile := { file := [], buffer := [], flushes := 0 }

@[simp] theorem OutFile.opened_file : OutFile.opened.file = [] := rfl

@[simp] theorem OutFile.opened_buffer : OutFile.opened.buffer = [] := rfl

@[simp] theorem OutFile.opened_flushes : OutFile.opened.flushes = 0 := rfl

section Streams

variable (size : Nat) (writes : Nat → Outcome)

/-- Write the buffer out: flush `i` of the stream moves what `writes i` says. What is not moved is lost. -/
def OutFile.flush (f : OutFile) : Bool × OutFile :=
  ((writes f.flushes).full f.buffer.length,
    { file := f.file ++ f.buffer.take (((writes f.flushes).moved f.buffer.length).getD 0)
      buffer := []
      flushes := f.flushes + 1 })

/-- `fputc`: a full buffer is flushed first, and where that fails the byte is not put. -/
def fputc (ch : UInt8) (f : OutFile) : Bool × OutFile :=
  if f.buffer.length < size then (true, { f with buffer := f.buffer ++ [ch] })
  else
    match f.flush writes with
    | (false, f) => (false, f)
    | (true, f) => (true, { f with buffer := [ch] })

/-- Bytes put one after the other, whatever `fputc` returns. -/
def fputs : Bytes → OutFile → OutFile
  | [], f => f
  | ch :: chs, f => fputs chs (fputc size writes ch f).2

/-- `fwrite`: up to the first byte that cannot be put. -/
def fwrite : Bytes → OutFile → Bool × OutFile
  | [], f => (true, f)
  | ch :: chs, f =>
    match fputc size writes ch f with
    | (false, f) => (false, f)
    | (true, f) => fwrite chs f

/-- `fclose`: the file, and whether the last flush succeeds. -/
def OutFile.close (f : OutFile) : Bool × Bytes :=
  if f.buffer = [] then (true, f.file) else ((f.flush writes).1, (f.flush writes).2.file)

/-- The flushes from number `k` on of `len` bytes move all of them. -/
def Flushed (k len : Nat) : Prop := ∀ i, i * size < len → (writes (k + i)).full (min size (len - i * size)) = true

/-- The same but for the last one. -/
def FlushedFull (k len : Nat) : Prop := ∀ i, (i + 1) * size < len → (writes (k + i)).full size = true

end Streams

variable {size : Nat} {writes : Nat → Outcome}

theorem flushed_last {k len : Nat} (hpos : 0 < len) (h : len ≤ size) :
    Flushed size writes k len ↔ (writes k).full len = true := by
  constructor
  · intro hf
    have := hf 0 (by omega)
    simpa [Nat.min_eq_right h] using this
  · intro hf i hi
    obtain rfl : i = 0 := by
      by_contra hne
      have := Nat.le_mul_of_pos_left size (Nat.pos_of_ne_zero hne)
      omega
    simpa [Nat.min_eq_right h] using hf

theorem flushed_next {k len : Nat} (h : size < len) :
    Flushed size writes k len ↔ (writes k).full size = true ∧ Flushed size writes (k + 1) (len - size) := by
  constructor
  · intro hf
    refine ⟨by simpa [Nat.min_eq_left (Nat.le_of_lt h)] using hf 0 (by omega), fun i hi => ?_⟩
    have := hf (i + 1) (by rw [Nat.succ_mul]; omega)
    rw [Nat.succ_mul] at this
    rw [Nat.add_assoc, Nat.add_comm 1 i, show len - size - i * size = len - (i * size + size) by omega]
    exact this
  · rintro ⟨h0, hf⟩ i hi
    match i with
    | 0 => simpa [Nat.min_eq_left (Nat.le_of_lt h)] using h0
    | i + 1 =>
      rw [Nat.succ_mul] at hi ⊢
      have := hf i (by omega)
      rwa [Nat.add_assoc, Nat.add_comm 1 i, show len - size - i * size = len - (i * size + size) by omega] at this

theorem flushedFull_last {k len : Nat} (h : len ≤ size) : FlushedFull size writes k len := by
  intro i hi
  rw [Nat.succ_mul] at hi
  omega

theorem flushedFull_next {k len : Nat} (h : size < len) :
    FlushedFull size writes k len ↔ (writes k).full size = true ∧ FlushedFull size writes (k + 1) (len - size) := by
  constructor
  · intro hf
    refine ⟨hf 0 (by omega), fun i hi => ?_⟩
    rw [Nat.add_assoc, Nat.add_comm 1 i]
    exact hf (i + 1) (by rw [Nat.succ_mul]; omega)
  · rintro ⟨h0, hf⟩ i hi
    match i with
    | 0 => exact h0
    | i + 1 =>
      rw [Nat.succ_mul] at hi
      have := hf i (by omega)
      rwa [Nat.add_assoc, Nat.add_comm 1 i] at this

theorem Outcome.moved_lt {o : Outcome} {want : Nat} (h : o.full want ≠ true) : (o.moved want).getD 0 < want ∨ want = 0 := by
  cases ho : o.moved want with
  | none => simp; omega
  | some n =>
    have hle := Outcome.moved_le ho
    have hne : n ≠ want := fun heq => h (Outcome.full_iff.mpr (by rw [ho, heq]))
    simp
    omega

section Fputc

variable {ch : UInt8} {f : OutFile}

theorem fputc_room (h : f.buffer.length < size) :
    fputc size writes ch f = (true, { f with buffer := f.buffer ++ [ch] }) := if_pos h

theorem fputc_flushed (h : ¬ f.buffer.length < size) (hfull : (writes f.flushes).full f.buffer.length = true) :
    fputc size writes ch f =
      (true, { file := f.file ++ f.buffer, buffer := [ch], flushes := f.flushes + 1 }) := by
  rw [fputc, if_neg h, OutFile.flush, hfull, Outcome.full_iff.mp hfull]
  simp

theorem fputc_lost (h : ¬ f.buffer.length < size) (hfull : (writes f.flushes).full f.buffer.length ≠ true) :
    fputc size writes ch f = (false, (f.flush writes).2) := by
  have hlost : (f.flush writes).1 = false := eq_false_of_ne_true hfull
  rw [fputc, if_neg h]
  cases hflush : f.flush writes with
  | mk ok g =>
    rw [hflush] at hlost
    obtain rfl : ok = false := hlost
    rfl

end Fputc

theorem fputs_buffer (hsize : 0 < size) (data : Bytes) {f : OutFile} (hf : f.buffer.length ≤ size) :
    (fputs size writes data f).buffer.length ≤ size := by
  induction data generalizing f with
  | nil => exact hf
  | cons ch data ih =>
    rw [fputs]
    refine ih ?_
    by_cases hlt : f.buffer.length < size
    · rw [fputc_room hlt]
      simp only [List.length_append, List.length_singleton]
      exact hlt
    · by_cases hfull : (writes f.flushes).full f.buffer.length = true
      · rw [fputc_flushed hlt hfull]
        exact hsize
      · rw [fputc_lost hlt hfull]
        exact Nat.zero_le _

theorem fputs_append (a b : Bytes) (f : OutFile) :
    fputs size writes (a ++ b) f = fputs size writes b (fputs size writes a f) := by
  induction a generalizing f with
  | nil => rfl
  | cons ch a ih =>
    rw [List.cons_append, fputs, fputs]
    exact ih _

/-- What is put on a stream is in its file after the close exactly if all flushes are complete. -/
theorem fputs_close (writes : Nat → Outcome) (hsize : 0 < size) (data : Bytes) (f : OutFile) (hf : f.buffer.length ≤ size) :
    (((fputs size writes data f).close writes).2.length ≤ f.file.length + f.buffer.length + data.length) ∧
    (Flushed size writes f.flushes (f.buffer ++ data).length →
      ((fputs size writes data f).close writes).2 = f.file ++ (f.buffer ++ data)) ∧
    (f.file.length + f.buffer.length + data.length ≤ ((fputs size writes data f).close writes).2.length →
      Flushed size writes f.flushes (f.buffer ++ data).length) := by
  induction data generalizing f with
  | nil =>
    rw [fputs, OutFile.close, List.append_nil]
    by_cases hnil : f.buffer = []
    · rw [if_pos hnil, hnil]
      refine ⟨by simp, by simp, fun _ i hi => ?_⟩
      simp at hi
    · have hpos := List.length_pos_iff.mpr hnil
      rw [if_neg hnil, flushed_last hpos hf]
      simp only [OutFile.flush, List.length_append, List.length_take, List.length_nil]
      refine ⟨by omega, fun hfull => ?_, fun hlen => ?_⟩
      · rw [Outcome.full_iff.mp hfull, Option.getD_some, List.take_length]
      · by_contra hno
        have := Outcome.moved_lt hno
        omega
  | cons ch data ih =>
    rw [fputs]
    by_cases hlt : f.buffer.length < size
    · rw [fputc_room hlt]
      obtain ⟨hle, hall, hlen⟩ := ih { f with buffer := f.buffer ++ [ch] } (by simp; omega)
      simp only [List.length_append, List.length_cons, List.length_nil, List.append_assoc, List.cons_append,
        List.nil_append] at hle hall hlen ⊢
      exact ⟨by omega, hall, fun h => hlen (by omega)⟩
    · have heq : f.buffer.length = size := by omega
      have hlong : size < (f.buffer ++ ch :: data).length := by simp; omega
      have hrest : (f.buffer ++ ch :: data).length - size = ([ch] ++ data).length := by simp; omega
      rw [flushed_next hlong, hrest]
      by_cases hfull : (writes f.flushes).full f.buffer.length = true
      · rw [fputc_flushed hlt hfull]
        obtain ⟨hle, hall, hlen⟩ := ih { file := f.file ++ f.buffer, buffer := [ch], flushes := f.flushes + 1 } hsize
        rw [heq] at hfull
        simp only [List.length_append, List.length_cons, List.length_nil, List.append_assoc] at hle hall hlen ⊢
        exact ⟨by omega, fun h => hall h.2, fun h => ⟨hfull, hlen (by omega)⟩⟩
      · have hmoved := Outcome.moved_lt hfull
        rw [fputc_lost hlt hfull]
        obtain ⟨hle, -, -⟩ := ih (f.flush writes).2 (Nat.zero_le _)
        rw [heq] at hfull hmoved
        simp only [OutFile.flush, List.length_append, List.length_take, List.length_nil, List.length_cons,
          heq] at hle ⊢
        exact ⟨by omega, fun h => absurd h.1 hfull, fun h => by omega⟩

/-- `fwrite` tells of all flushes but the last, and where it succeeds it has put what `fputs` puts. -/
theorem fwrite_true (writes : Nat → Outcome) (hsize : 0 < size) (data : Bytes) (f : OutFile) (hf : f.buffer.length ≤ size) :
    ((fwrite size writes data f).1 = true ↔ FlushedFull size writes f.flushes (f.buffer ++ data).length) ∧
    ((fwrite size writes data f).1 = true → (fwrite size writes data f).2 = fputs size writes data f) := by
  induction data generalizing f with
  | nil =>
    rw [List.append_nil]
    exact ⟨⟨fun _ => flushedFull_last hf, fun _ => rfl⟩, fun _ => rfl⟩
  | cons ch data ih =>
    rw [fwrite, fputs]
    by_cases hlt : f.buffer.length < size
    · rw [fputc_room hlt]
      have hrest := ih { f with buffer := f.buffer ++ [ch] } (by simp; omega)
      simpa using hrest
    · have heq : f.buffer.length = size := by omega
      have hlong : size < (f.buffer ++ ch :: data).length := by simp; omega
      have hlen : (f.buffer ++ ch :: data).length - size = ([ch] ++ data).length := by simp; omega
      rw [flushedFull_next hlong, hlen]
      by_cases hfull : (writes f.flushes).full f.buffer.length = true
      · rw [fputc_flushed hlt hfull]
        obtain ⟨hiff, hsame⟩ := ih { file := f.file ++ f.buffer, buffer := [ch], flushes := f.flushes + 1 } hsize
        rw [heq] at hfull
        exact ⟨⟨fun h => ⟨hfull, hiff.mp h⟩, fun h => hiff.mpr h.2⟩, hsame⟩
      · rw [fputc_lost hlt hfull]
        rw [heq] at hfull
        exact ⟨⟨fun h => (by cases h), fun h => absurd h.1 hfull⟩, fun h => (by cases h)⟩

end Transfer
