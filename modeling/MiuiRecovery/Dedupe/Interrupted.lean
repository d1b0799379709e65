import MiuiRecovery.Dedupe.Store
import MiuiRecovery.Lib.Prog
import MiuiRecovery.Lib.Transfer

/-!
# Stores that are interrupted

`store_file` and `copy_file` of `dedupe.c` call by call: every call can fail, and a store can be cut off behind any of
them. The file that is stored does not change meanwhile.

* `storeSt_addressed`: at every cut, each blob below a final name has the digest that its name states.
* `copyFile_ends_iff`: a read that fails is not told from a write that does, and so the copy goes on for ever.
* `stores_iff`: what a store that returns 0 has written.
-/

namespace Miui
namespace Dedupe
namespace Storing

open Prog (call wp Reaches Returns)
open Transfer Numeral

/-! ## The calls -/

/-- The calls of a store. The names are those below the directory of the blobs. -/
inductive BlobOp : Type → Type
  /-- the file is opened, and has this content -/
  | openSource (content : Bytes) : BlobOp Bool
  | mkdir : BlobOp Unit
  /-- the size of a file, if there is one -/
  | stat (name : Bytes) : BlobOp (Option Int)
  | openTrunc (name : Bytes) : BlobOp Bool
  /-- up to 4096 bytes of the file; `none` for `-1` -/
  | read : BlobOp (Option Bytes)
  /-- whether all is written -/
  | write (name buf : Bytes) : BlobOp Bool
  | rename (old new : Bytes) : BlobOp Bool
  /-- `fprintf(context->output_manifest, ..)` -/
  | print (text : Bytes) : BlobOp Unit
  /-- a write behind the end of a buffer -/
  | overflow : BlobOp Unit

/-- The blobs, what is left of the open file, and the stream of the manifest. -/
structure State where
  files : Blobs
  src : Bytes
  manifest : OutFile
  room : manifest.buffer.length ≤ BUFSIZ

def State.setFile (s : State) (name : Bytes) (b : Option Bytes) : State :=
  { s with files := Function.update s.files name b }

def State.setSrc (s : State) (src : Bytes) : State := { s with src := src }

@[simp] theorem State.setSrc_files (s : State) (src : Bytes) : (s.setSrc src).files = s.files := rfl

@[simp] theorem State.setSrc_src (s : State) (src : Bytes) : (s.setSrc src).src = src := rfl

@[simp] theorem State.setFile_src (s : State) (name : Bytes) (b : Option Bytes) : (s.setFile name b).src = s.src := rfl

@[simp] theorem State.setFile_self (s : State) (name : Bytes) (b : Option Bytes) :
    (s.setFile name b).files name = b := Function.update_self _ _ _

theorem State.setFile_ne (s : State) {name x : Bytes} (b : Option Bytes) (h : x ≠ name) :
    (s.setFile name b).files x = s.files x := Function.update_of_ne h _ _

/-- What `fprintf` puts on the stream. -/
def State.print (s : State) (writes : Nat → Outcome) (text : Bytes) : State :=
  { s with
    manifest := fputs BUFSIZ writes text s.manifest
    room := fputs_buffer (by decide) text s.room }

@[simp] theorem State.print_files (s : State) (writes : Nat → Outcome) (text : Bytes) :
    (s.print writes text).files = s.files := rfl

@[simp] theorem State.print_manifest (s : State) (writes : Nat → Outcome) (text : Bytes) :
    (s.print writes text).manifest = fputs BUFSIZ writes text s.manifest := rfl

/-- A new manifest, as the next run of `dedupe c` opens it. -/
def State.restart (s : State) : State := { s with manifest := .opened, room := Nat.zero_le _ }

/-- No blobs, and a new manifest. -/
def State.fresh : State where
  files := fun _ => none
  src := []
  manifest := .opened
  room := Nat.zero_le _

/-- The calls on a device that answers in any way. A `read` returns nothing only at the end of the file. -/
def blobSem (writes : Nat → Outcome) : Prog.Sem BlobOp State
  | _, .openSource content, s, r, s' => s' = if r then s.setSrc content else s
  | _, .mkdir, s, _, s' => s' = s
  | _, .stat name, s, r, s' => (r = none ∨ r = (s.files name).map intSize) ∧ s' = s
  | _, .openTrunc name, s, r, s' => s' = if r then s.setFile name (some []) else s
  | _, .read, s, r, s' =>
    (r = none ∧ s' = s) ∨ ∃ n, 0 < n ∧ n ≤ 4096 ∧ r = some (s.src.take n) ∧ s' = s.setSrc (s.src.drop n)
  | _, .write name buf, s, r, s' =>
    ∃ n ≤ buf.length, r = decide (n = buf.length) ∧ s' = s.setFile name ((s.files name).map (· ++ buf.take n))
  | _, .rename old new, s, r, s' => s' = if r then (s.setFile new (s.files old)).setFile old none else s
  | _, .print text, s, _, s' => s' = s.print writes text
  | _, .overflow, _, _, _ => True

/-! ## dedupe.c -/

/-- The loop of `copy_file` for at most `fuel` rounds: the result, or `none` while it goes on. -/
def copyLoop (dst : Bytes) : Nat → Prog BlobOp (Option Int)
  | 0 => pure none
  | fuel + 1 => do
    match ← call .read with
    -- write(dstfd, buf, -1) returns -1 as well
    | none => copyLoop dst fuel
    | some buf =>
      if buf = [] then pure (some 0)
      else if ← call (.write dst buf) then copyLoop dst fuel
      else pure (some 5)

def copyFile (content dst : Bytes) (fuel : Nat) : Prog BlobOp (Option Int) := do
  if ← call (.openSource content) then
    if ← call (.openTrunc dst) then copyLoop dst fuel else pure (some 4)
  else pure (some 3)

/-- The name of the blob while it is copied. -/
def tmp (key : Bytes) : Bytes := key ++ Bytes.ascii ".tmp"

/-- The copy to `tmp_out_blob`, and its rename. -/
def copyBlob (key content : Bytes) (fuel : Nat) : Prog BlobOp (Option Int) := do
  match ← copyFile content (tmp key) fuel with
  | some 0 => if ← call (.rename (tmp key) key) then pure (some 0) else pure (some (-1))
  | r => pure r

/-- The blob, unless there is one of the same size. -/
def putBlob (key content : Bytes) (fuel : Nat) : Prog BlobOp (Option Int) := do
  let info ← call (.stat key)
  if info = some (intSize content) then pure (some 0) else copyBlob key content fuel

/-- The end of `store_file`. -/
def putLine (key content : Bytes) (ret : Option Int) : Prog BlobOp (Option Int) :=
  if ret = some 0 then do
    call (.print (tabbed [key, signed (intSize content)] ++ [10]))
    pure (some 0)
  else pure ret

/-- `store_file` of a file with this content. -/
def storeFile (e : Env) (content : Bytes) (fuel : Nat) : Prog BlobOp (Option Int) := do
  if ← call (.openSource content) then
    let key := e.key content
    if (join e.blob_dir key).length + 4 < PATH_MAX then
      call .mkdir
      let ret ← putBlob key content fuel
      putLine key content ret
    else do
      call .overflow
      pure (some 0)
  else pure (some 1)

/-- `store_st` of a regular file: `print_stat` and `store_file`. -/
def storeSt (e : Env) (st : Stat) (f content : Bytes) (fuel : Nat) : Prog BlobOp (Option Int) := do
  call (.print (tabbed ((Line.ofStat st f (.file (e.key content) (intSize content))).stat 2)))
  storeFile e content fuel

/-! ## The blobs at every cut -/

variable {e : Env} {writes : Nat → Outcome} {s s₀ : State} {dst content : Bytes}

/-- Each blob below a final name has the digest that its name states. -/
def Addressed (e : Env) (files : Blobs) : Prop :=
  ∀ name b, files name = some b → ¬ Bytes.ascii ".tmp" <:+ name → e.key b = name

theorem State.fresh_addressed : Addressed e State.fresh.files := fun _ _ hb _ => by cases hb

theorem hexDigit_ne {d : UInt8} (h : d.toNat < 16) : hexDigit d ≠ 112 := by
  intro heq
  have hnat := congrArg UInt8.toNat heq
  unfold hexDigit at hnat
  split at hnat
  · rename_i hlt
    have hlt' := UInt8.lt_iff_toNat_lt.mp hlt
    simp at hnat hlt'
    omega
  · simp at hnat
    omega

/-- A key does not end in `p`. -/
theorem tmp_not_suffix_key (e : Env) (content : Bytes) : ¬ Bytes.ascii ".tmp" <:+ e.key content := by
  intro h
  have hmem : (112 : UInt8) ∈ e.key content := h.subset (by decide)
  have hpsum : ∀ d : Bytes, (112 : UInt8) ∉ psum d := by
    intro d hd
    obtain ⟨b, -, hb⟩ := List.mem_flatMap.mp hd
    simp only [List.mem_cons, List.not_mem_nil, or_false] at hb
    rcases hb with hb | hb
    · refine hexDigit_ne ?_ hb.symm
      have := b.toNat_lt
      simp [Nat.shiftRight_eq_div_pow]
      omega
    · refine hexDigit_ne ?_ hb.symm
      simp only [UInt8.toNat_and]
      exact Nat.lt_succ_of_le Nat.and_le_right
  unfold Env.key at hmem
  simp only [List.mem_append, List.mem_cons] at hmem
  rcases hmem with h | h | h
  · exact hpsum _ (List.mem_of_mem_take h)
  · exact absurd h (by decide)
  · exact hpsum _ (List.mem_of_mem_drop h)

theorem tmp_suffix (key : Bytes) : Bytes.ascii ".tmp" <:+ tmp key := List.suffix_append _ _

/-- Only the file `dst` is different, and the manifest is not. -/
structure Kept (dst : Bytes) (s₀ s : State) : Prop where
  files : ∀ x, x ≠ dst → s.files x = s₀.files x
  manifest : s.manifest = s₀.manifest

theorem Kept.refl : Kept dst s s := ⟨fun _ _ => rfl, rfl⟩

theorem Kept.setFile (h : Kept dst s₀ s) (b : Option Bytes) : Kept dst s₀ (s.setFile dst b) :=
  ⟨fun x hx => (State.setFile_ne s b hx).trans (h.files x hx), h.manifest⟩

theorem Kept.setSrc (h : Kept dst s₀ s) (src : Bytes) : Kept dst s₀ (s.setSrc src) := ⟨h.files, h.manifest⟩

/-- A temporary file is not below a final name. -/
theorem Kept.addressed {key : Bytes} (h : Kept (tmp key) s₀ s) (ha : Addressed e s₀.files) :
    Addressed e s.files := by
  intro name b hb hname
  have hne : name ≠ tmp key := by
    rintro rfl
    exact hname (tmp_suffix key)
  rw [h.files name hne] at hb
  exact ha name b hb hname

/-- The rounds of the copy: what is written and what is left are the content. -/
theorem copyLoop_spec (fuel : Nat) (done : Bytes) (hdone : s.files dst = some done) (hsrc : done ++ s.src = content)
    (hkept : Kept dst s₀ s) :
    wp (blobSem writes) (Kept dst s₀) (fun r s' => r = some 0 → s'.files dst = some content)
      (copyLoop dst fuel) s := by
  induction fuel generalizing s done with
  | zero => exact ⟨hkept, fun h => by cases h⟩
  | succ fuel ih =>
    simp only [copyLoop, Prog.call_bind, Prog.wp_op]
    refine ⟨hkept, fun r s' hr => ?_⟩
    rcases hr with ⟨rfl, rfl⟩ | ⟨n, hpos, -, rfl, rfl⟩
    · exact ih done hdone hsrc hkept
    simp only
    by_cases hnil : s.src.take n = []
    · rw [if_pos hnil]
      have hempty : s.src = [] := by
        rcases List.take_eq_nil_iff.mp hnil with rfl | h
        · omega
        · exact h
      rw [hempty, List.append_nil] at hsrc
      exact ⟨hkept.setSrc _, fun _ => hsrc ▸ hdone⟩
    · rw [if_neg hnil]
      refine ⟨hkept.setSrc _, fun r s' hr => ?_⟩
      obtain ⟨k, hk, rfl, rfl⟩ := hr
      have hkept' := (hkept.setSrc (s.src.drop n)).setFile ((s.files dst).map (· ++ (s.src.take n).take k))
      by_cases hfull : k = (s.src.take n).length
      · rw [hfull, List.take_length] at hkept' ⊢
        simp only [decide_true, ↓reduceIte]
        refine ih (done ++ s.src.take n) ?_ ?_ hkept'
        · simp [hdone]
        · simp only [State.setFile_src, State.setSrc_src]
          rw [List.append_assoc, List.take_append_drop, hsrc]
      · simp only [hfull, decide_false, Bool.false_eq_true, ↓reduceIte]
        exact ⟨hkept', fun h => by cases h⟩

theorem copyFile_spec (fuel : Nat) :
    wp (blobSem writes) (Kept dst s₀) (fun r s' => r = some 0 → s'.files dst = some content)
      (copyFile content dst fuel) s₀ := by
  simp only [copyFile, Prog.call_bind, Prog.wp_op]
  refine ⟨Kept.refl, fun r s' hr => ?_⟩
  obtain rfl := hr
  cases r with
  | false => exact ⟨Kept.refl, fun h => by cases h⟩
  | true =>
    have hsrc : Kept dst s₀ (s₀.setSrc content) := Kept.refl.setSrc _
    simp only [↓reduceIte]
    refine ⟨hsrc, fun r s' hr => ?_⟩
    obtain rfl := hr
    cases r with
    | false => exact ⟨hsrc, fun h => by cases h⟩
    | true =>
      simp only [↓reduceIte]
      exact copyLoop_spec fuel [] (State.setFile_self _ _ _) (List.nil_append _) (hsrc.setFile _)

/-- What is true at every cut of a store that has printed nothing yet. -/
structure Stored (e : Env) (s₀ s : State) : Prop where
  addressed : Addressed e s.files
  manifest : s.manifest = s₀.manifest

theorem Kept.stored {key : Bytes} (h : Kept (tmp key) s₀ s) (ha : Addressed e s₀.files) : Stored e s₀ s :=
  ⟨h.addressed ha, h.manifest⟩

theorem copyBlob_spec (fuel : Nat) (ha : Addressed e s₀.files) :
    wp (blobSem writes) (Stored e s₀) (fun r s' => r = some 0 → s'.files (e.key content) = some content)
      (copyBlob (e.key content) content fuel) s₀ := by
  rw [copyBlob, Prog.wp_bind]
  refine Prog.wp_mono (fun s h => h.stored ha) (fun r s hkept hcopied => ?_) (copyFile_spec fuel)
  have hstored : Stored e s₀ s := hkept.stored ha
  split
  · have hcopy : s.files (tmp (e.key content)) = some content := hcopied rfl
    simp only [Prog.call_bind, Prog.wp_op]
    refine ⟨hstored, fun r s' hr => ?_⟩
    obtain rfl := hr
    cases r with
    | false => exact ⟨hstored, fun h => by cases h⟩
    | true =>
      have hne : e.key content ≠ tmp (e.key content) := fun heq =>
        tmp_not_suffix_key e content (heq ▸ tmp_suffix _)
      have hnew : ((s.setFile (e.key content) (s.files (tmp (e.key content)))).setFile (tmp (e.key content)) none).files
          (e.key content) = some content := by
        rw [State.setFile_ne _ _ hne, State.setFile_self, hcopy]
      refine ⟨⟨fun name b hb hname => ?_, hstored.manifest⟩, fun _ => hnew⟩
      simp only [↓reduceIte] at hb
      by_cases hkey : name = e.key content
      · rw [hkey, hnew] at hb
        rw [hkey, Option.some.inj hb]
      · have htmp : name ≠ tmp (e.key content) := by
          rintro rfl
          exact hname (tmp_suffix _)
        rw [State.setFile_ne _ _ htmp, State.setFile_ne _ _ hkey] at hb
        exact hstored.addressed name b hb hname
  · next hno => exact ⟨hstored, fun h => absurd h hno⟩

theorem putBlob_spec (fuel : Nat) (hs : Stored e s₀ s) :
    wp (blobSem writes) (Stored e s₀)
      (fun r s' => r = some 0 → ∃ b, s'.files (e.key content) = some b ∧ intSize b = intSize content)
      (putBlob (e.key content) content fuel) s := by
  simp only [putBlob, Prog.call_bind, Prog.wp_op]
  refine ⟨hs, fun r s' hr => ?_⟩
  obtain ⟨hr, rfl⟩ := hr
  split
  · next hsize =>
    refine ⟨hs, fun _ => ?_⟩
    rcases hr with rfl | rfl
    · cases hsize
    · obtain ⟨b, hb, hbsize⟩ := Option.map_eq_some_iff.mp hsize
      exact ⟨b, hb, hbsize⟩
  · refine Prog.wp_mono (fun t ht => ⟨ht.addressed, ht.manifest.trans hs.manifest⟩) (fun r t _ ht hr => ?_)
      (copyBlob_spec fuel hs.addressed)
    exact ⟨content, ht hr, rfl⟩

/-- The directory of the blobs leaves room for a key, `.tmp` and the zero. -/
def Roomy (e : Env) : Prop := e.blob_dir.length + 70 < PATH_MAX

instance (e : Env) : Decidable (Roomy e) := inferInstanceAs (Decidable (_ < _))

theorem join_key_fits (hroom : Roomy e) (content : Bytes) : (join e.blob_dir (e.key content)).length + 4 < PATH_MAX := by
  unfold Roomy at hroom
  rw [join, List.length_append, List.length_cons, length_key]
  omega

/-- What `storeFile` prints. -/
def keyText (e : Env) (content : Bytes) : Bytes := tabbed [e.key content, signed (intSize content)] ++ [10]

/-- A store keeps the blobs named by their digests at every cut; where it returns 0, there is a blob of the key and
its line is printed. -/
theorem storeFile_spec (hroom : Roomy e) (fuel : Nat) (ha : Addressed e s₀.files) :
    wp (blobSem writes) (fun s => Addressed e s.files)
      (fun r s' => r = some 0 → (∃ b, s'.files (e.key content) = some b ∧ e.key b = e.key content) ∧
        s'.manifest = fputs BUFSIZ writes (keyText e content) s₀.manifest)
      (storeFile e content fuel) s₀ := by
  simp only [storeFile, Prog.call_bind, Prog.wp_op]
  refine ⟨ha, fun r s hr => ?_⟩
  obtain rfl := hr
  cases r with
  | false => exact ⟨ha, fun h => by cases h⟩
  | true =>
    simp only [↓reduceIte]
    rw [if_pos (join_key_fits hroom content), Prog.wp_op]
    refine ⟨ha, fun _ s hr => ?_⟩
    obtain rfl := hr
    rw [Prog.wp_bind]
    have hs : Stored e s₀ (s₀.setSrc content) := ⟨ha, rfl⟩
    refine Prog.wp_mono (fun t ht => ht.addressed) (fun r t ht hblob => ?_) (putBlob_spec fuel hs)
    unfold putLine
    split
    · next hr =>
      subst hr
      obtain ⟨b, hb, -⟩ := hblob rfl
      refine ⟨ht.addressed, fun _ u hu => ?_⟩
      obtain rfl := hu
      refine ⟨ht.addressed, fun _ => ⟨⟨b, hb, ht.addressed _ b hb (tmp_not_suffix_key e content)⟩, ?_⟩⟩
      have hm := ht.manifest
      simp only [State.print, hm]
      rfl
    · next hno => exact ⟨ht.addressed, fun h => absurd h hno⟩

/-- What a store of the file prints in all. -/
def lineText (e : Env) (st : Stat) (f content : Bytes) : Bytes :=
  (Line.ofStat st f (.file (e.key content) (intSize content))).text 2 ++ [10]

theorem lineText_eq (e : Env) (st : Stat) (f content : Bytes) :
    tabbed ((Line.ofStat st f (.file (e.key content) (intSize content))).stat 2) ++ keyText e content =
      lineText e st f content := by
  have hfields : (Line.ofStat st f (.file (e.key content) (intSize content))).item.fields =
      [e.key content, signed (intSize content)] := rfl
  simp only [lineText, keyText, Line.text, Line.fields, hfields, tabbed, List.flatMap_append, List.append_assoc]

theorem storeSt_spec (writes : Nat → Outcome) (hroom : Roomy e) (st : Stat) (f content : Bytes) (fuel : Nat) (ha : Addressed e s₀.files) :
    wp (blobSem writes) (fun s => Addressed e s.files)
      (fun r s' => r = some 0 → (∃ b, s'.files (e.key content) = some b ∧ e.key b = e.key content) ∧
        s'.manifest = fputs BUFSIZ writes (lineText e st f content) s₀.manifest)
      (storeSt e st f content fuel) s₀ := by
  simp only [storeSt, Prog.call_bind, Prog.wp_op]
  refine ⟨ha, fun _ s hr => ?_⟩
  obtain rfl := hr
  refine Prog.wp_mono (fun _ h => h) (fun r t _ ht hr => ?_) (storeFile_spec hroom fuel ha)
  obtain ⟨hblob, hprinted⟩ := ht hr
  refine ⟨hblob, ?_⟩
  rw [hprinted, ← lineText_eq, fputs_append, State.print_manifest]

/-- Stores one after the other, each cut off anywhere, the lines of links and directories, and new runs. -/
def Runs (e : Env) (writes : Nat → Outcome) : State → State → Prop :=
  Relation.ReflTransGen fun s s' =>
    (∃ st f content fuel, Reaches (blobSem writes) (storeSt e st f content fuel) s s') ∨
    (∃ text, s' = s.print writes text) ∨ s' = s.restart

/-- At every cut of any number of stores, each blob below a final name has the digest that its name states. -/
theorem storeSt_addressed (hroom : Roomy e) {s s' : State} (h : Runs e writes s s') (ha : Addressed e s.files) :
    Addressed e s'.files := by
  induction h with
  | refl => exact ha
  | tail _ hstep ih =>
    rcases hstep with ⟨st, f, content, fuel, hr⟩ | ⟨text, rfl⟩ | rfl
    · have hspec := storeSt_spec writes hroom st f content fuel ih
      exact (Prog.wp_iff.mp hspec).1 _ hr
    · exact ih
    · exact ih

/-- The blob that a store leaves is the content, unless two contents have its key. -/
theorem storeSt_returns (hroom : Roomy e) {st : Stat} {f : Bytes} {fuel : Nat} {s t : State}
    (ha : Addressed e s.files) (h : Returns (blobSem writes) (storeSt e st f content fuel) s (some 0) t) :
    (∃ b, t.files (e.key content) = some b ∧ e.key b = e.key content) ∧
      t.manifest = fputs BUFSIZ writes (lineText e st f content) s.manifest :=
  Prog.wp_returns (storeSt_spec writes hroom st f content fuel ha) h rfl

/-! ## The end of a copy -/

section Ends

variable (reads : Nat → Outcome)

/-- How much of a longer file a `read` of 4096 bytes moves: a `read` that does not fail moves at least one byte. -/
def amount (o : Outcome) : Nat :=
  match o with
  | .error => 0
  | .upTo n => max 1 (min n 4096)

/-- What `len` rounds from round `k` on read of a longer file. -/
def amounts (k : Nat) : Nat → Nat
  | 0 => 0
  | len + 1 => amount (reads k) + amounts (k + 1) len

/-- The `read` of round `k`. -/
def readBy (k : Nat) (s : State) : Option Bytes × (Nat × State) :=
  match reads k with
  | .error => (none, k + 1, s)
  | o => (some (s.src.take (amount o)), k, s.setSrc (s.src.drop (amount o)))

/-- The calls of a copy whose round `k` is answered by `reads k` and `writes k`. -/
def answerBy (writes : Nat → Outcome) : ∀ β : Type, BlobOp β → Nat × State → β × (Nat × State)
  | _, .openSource content, (k, s) => (true, k, s.setSrc content)
  | _, .mkdir, (k, s) => ((), k, s)
  | _, .stat name, (k, s) => ((s.files name).map intSize, k, s)
  | _, .openTrunc name, (k, s) => (true, k, s.setFile name (some []))
  | _, .read, (k, s) => readBy reads k s
  | _, .write name buf, (k, s) =>
    (decide (((writes k).moved buf.length).getD 0 = buf.length), k + 1,
      s.setFile name ((s.files name).map (· ++ buf.take (((writes k).moved buf.length).getD 0))))
  | _, .rename old new, (k, s) => (true, k, (s.setFile new (s.files old)).setFile old none)
  | _, .print text, (k, s) => ((), k, s.print writes text)
  | _, .overflow, (k, s) => ((), k, s)

/-- The copy into `dst` ends, with this result. -/
def CopyEnds (writes : Nat → Outcome) (s : State) (content dst : Bytes) : Prop :=
  ∃ fuel r, (Prog.exec (answerBy reads writes) (copyFile content dst fuel) (0, s)).1 = some r

/-- A round that does not fail to read has reached the end of the file, or falls short of writing. -/
def Breaks (writes : Nat → Outcome) (k len : Nat) (j : Nat) : Prop :=
  reads (k + j) ≠ .error ∧
    (len ≤ amounts reads k j ∨
      (writes (k + j)).full (min (amount (reads (k + j))) (len - amounts reads k j)) = false)

variable {reads}

theorem readBy_error {k : Nat} (h : reads k = .error) (s : State) : readBy reads k s = (none, k + 1, s) := by
  rw [readBy, h]

theorem readBy_some {k : Nat} (h : reads k ≠ .error) (s : State) :
    readBy reads k s =
      (some (s.src.take (amount (reads k))), k, s.setSrc (s.src.drop (amount (reads k)))) := by
  unfold readBy
  cases hread : reads k with
  | error => exact absurd hread h
  | upTo n => rfl

theorem amount_pos {o : Outcome} (h : o ≠ .error) : 0 < amount o ∧ amount o ≤ 4096 := by
  cases o with
  | error => exact absurd rfl h
  | upTo n => simp [amount]

/-- The calls so answered are calls of the device. -/
theorem answerBy_sem {β : Type} (o : BlobOp β) (t : Nat × State) :
    blobSem writes _ o t.2 (answerBy reads writes _ o t).1 (answerBy reads writes _ o t).2.2 := by
  obtain ⟨k, s⟩ := t
  cases o with
  | openSource content => rfl
  | mkdir => rfl
  | stat name => exact ⟨.inr rfl, rfl⟩
  | openTrunc name => rfl
  | read =>
    by_cases hread : reads k = .error
    · rw [answerBy, readBy_error hread]
      exact .inl ⟨rfl, rfl⟩
    · rw [answerBy, readBy_some hread]
      obtain ⟨hpos, hle⟩ := amount_pos hread
      exact .inr ⟨amount (reads k), hpos, hle, rfl, rfl⟩
  | write name buf =>
    refine ⟨((writes k).moved buf.length).getD 0, ?_, rfl, rfl⟩
    cases hmoved : (writes k).moved buf.length with
    | none => exact Nat.zero_le _
    | some n => exact Outcome.moved_le hmoved
  | rename old new => rfl
  | print text => rfl
  | overflow => trivial

/-- A run so answered is a run of the device. -/
theorem answerBy_returns {α : Type} (reads writes : Nat → Outcome) (p : Prog BlobOp α) (s : State) :
    Returns (blobSem writes) p s (Prog.exec (answerBy reads writes) p (0, s)).1
      (Prog.exec (answerBy reads writes) p (0, s)).2.2 :=
  Prog.exec_returns_view Prod.snd answerBy_sem p (0, s)

theorem getD_moved {o : Outcome} {want : Nat} (h : 0 < want) : (o.moved want).getD 0 = want ↔ o.full want = true := by
  rw [Outcome.full_iff]
  cases o.moved want with
  | none => simp [h.ne]
  | some n => simp

theorem breaks_zero {k len : Nat} :
    Breaks reads writes k len 0 ↔ reads k ≠ .error ∧
      (len = 0 ∨ (writes k).full (min (amount (reads k)) len) = false) := by
  simp [Breaks, amounts]

theorem breaks_succ {k len j : Nat} :
    Breaks reads writes k len (j + 1) ↔ Breaks reads writes (k + 1) (len - amount (reads k)) j := by
  rw [Breaks, Breaks, amounts, show k + (j + 1) = k + 1 + j by omega, Nat.sub_sub, Nat.sub_le_iff_le_add']

/-- The rounds up to the first that breaks the loop. -/
theorem copyLoop_ends (fuel k : Nat) (s : State) :
    (∃ r, (Prog.exec (answerBy reads writes) (copyLoop dst fuel) (k, s)).1 = some r) ↔
      ∃ j < fuel, Breaks reads writes k s.src.length j := by
  induction fuel generalizing k s with
  | zero => simp [copyLoop, Prog.exec]
  | succ fuel ih =>
    rw [Nat.exists_lt_succ_left, breaks_zero]
    simp only [breaks_succ, copyLoop, Prog.call_bind, Prog.exec, answerBy]
    by_cases hread : reads k = .error
    · rw [readBy_error hread]
      simpa [hread, amount] using ih (k + 1) s
    · rw [readBy_some hread]
      obtain ⟨hpos, -⟩ := amount_pos hread
      simp only [List.take_eq_nil_iff, hpos.ne', false_or]
      by_cases hnil : s.src = []
      · simp [hnil, hread, Prog.exec]
      · have hwant : 0 < min (amount (reads k)) s.src.length :=
          Nat.lt_min.mpr ⟨hpos, List.length_pos_iff.mpr hnil⟩
        simp only [hnil, ↓reduceIte, Prog.exec, answerBy, getD_moved hwant, List.length_take, decide_eq_true_eq]
        by_cases hfull : (writes k).full (min (amount (reads k)) s.src.length) = true
        · simp only [hfull, ↓reduceIte, ih]
          simp [hnil, List.length_drop]
        · simp [hfull, hread, Prog.exec]

/-- A copy ends exactly if some round that does not fail to read breaks its loop: a read that fails is not told from a
write that does. -/
theorem copyFile_ends_iff (s : State) :
    CopyEnds reads writes s content dst ↔ ∃ j, Breaks reads writes 0 content.length j := by
  unfold CopyEnds
  simp only [copyFile, Prog.call_bind, Prog.exec, answerBy, ↓reduceIte, copyLoop_ends]
  simp only [State.setFile_src, State.setSrc_src]
  exact ⟨fun ⟨_, j, _, h⟩ => ⟨j, h⟩, fun ⟨j, h⟩ => ⟨j + 1, j, Nat.lt_succ_self j, h⟩⟩

end Ends

/-! ## What a store that returns 0 has written -/

/-- There is a complete blob of the content's key, and it is the content unless two contents have that key. -/
def Holds (e : Env) (content : Bytes) (s : State) : Prop :=
  ∃ b, s.files (e.key content) = some b ∧ e.key b = e.key content ∧
    ((∀ c, e.key c = e.key content → c = content) → b = content)

/-- Where the directory leaves no room for the path of a temporary file, a store can leave anything. -/
theorem storeSt_overflow (writes : Nat → Outcome) (hroom : ¬ Roomy e) (st : Stat) (f content : Bytes) (fuel : Nat) (s t : State) :
    Reaches (blobSem writes) (storeSt e st f content fuel) s t := by
  have hlong : ¬ (join e.blob_dir (e.key content)).length + 4 < PATH_MAX := by
    unfold Roomy at hroom
    rw [join, List.length_append, List.length_cons, length_key]
    omega
  simp only [storeSt, storeFile, if_neg hlong, Prog.call_bind]
  refine .step (r := ()) rfl (.step (r := true) rfl ?_)
  exact .step (r := ()) trivial .here

/-- What a store has printed is in the manifest, once that is closed behind it, exactly if all flushes are complete. -/
theorem close_fputs_iff (text : Bytes) (s : State) :
    ((fputs BUFSIZ writes text s.manifest).close writes).2 = s.manifest.file ++ (s.manifest.buffer ++ text) ↔
      Flushed BUFSIZ writes s.manifest.flushes (s.manifest.buffer ++ text).length := by
  obtain ⟨-, hall, hlen⟩ := fputs_close writes (by decide) text s.manifest s.room
  refine ⟨fun h => hlen ?_, hall⟩
  rw [h]
  simp only [List.length_append]
  omega

/-- The blobs are addressed by their contents in every run if the directory leaves room for their paths; a copy ends
exactly if a round that does not fail to read breaks its loop; and of a store that returns 0 the blob is complete, but
its line only if all flushes of the manifest are. -/
theorem stores_iff (e : Env) :
    ((∀ writes s s', Addressed e s.files → Runs e writes s s' → Addressed e s'.files ∧
        ∀ st f content fuel t, Returns (blobSem writes) (storeSt e st f content fuel) s' (some 0) t →
          Holds e content t) ↔ Roomy e) ∧
    (∀ reads writes s content dst,
      CopyEnds reads writes s content dst ↔ ∃ j, Breaks reads writes 0 content.length j) ∧
    (Roomy e → ∀ writes s st f content fuel t, Addressed e s.files →
      Returns (blobSem writes) (storeSt e st f content fuel) s (some 0) t →
        ((t.manifest.close writes).2 = s.manifest.file ++ (s.manifest.buffer ++ lineText e st f content) ↔
          Flushed BUFSIZ writes s.manifest.flushes (s.manifest.buffer ++ lineText e st f content).length)) := by
  refine ⟨⟨fun h => ?_, fun hroom writes s s' ha hruns => ?_⟩, ?_, ?_⟩
  · by_contra hroom
    have hreach := storeSt_overflow (fun _ => .error) hroom ⟨0, 0, 0, 0, 0, 0⟩ [] [] 0 .fresh
      { State.fresh with files := fun _ => some [] }
    have haddressed := (h _ _ _ State.fresh_addressed (.single (.inl ⟨_, _, _, _, hreach⟩))).1
    have hkey := haddressed [] [] rfl (by decide)
    have hlen := length_key e []
    rw [hkey] at hlen
    cases hlen
  · have ha' := storeSt_addressed hroom hruns ha
    refine ⟨ha', fun st f content fuel t hret => ?_⟩
    obtain ⟨⟨b, hb, hkey⟩, -⟩ := storeSt_returns hroom ha' hret
    exact ⟨b, hb, hkey, fun htell => htell b hkey⟩
  · intro reads writes s content dst
    exact copyFile_ends_iff s
  · intro hroom writes s st f content fuel t ha hret
    rw [(storeSt_returns hroom ha hret).2]
    exact close_fputs_iff _ s

theorem length_zeros : (List.replicate 32 (0 : UInt8)).length = 32 := List.length_replicate

/-- All contents have one digest. -/
def flat : Env where
  blob_dir := Bytes.ascii "blobs"
  sha256 := fun _ => ⟨List.replicate 32 0, length_zeros⟩

/-- On a file whose reads fail the copy goes on for ever, and on a full device a store that returns 0 loses its line. -/
theorem stores_failing :
    ¬ CopyEnds (fun _ => .error) (fun _ => .upTo 4096) .fresh [65] (tmp (flat.key [65])) ∧
    ∃ t, Returns (blobSem fun _ => .upTo 0) (storeSt flat ⟨0, 0, 0, 0, 0, 0⟩ [97] [] 1) .fresh (some 0) t ∧
      (t.manifest.close fun _ => .upTo 0).2 ≠ lineText flat ⟨0, 0, 0, 0, 0, 0⟩ [97] [] := by
  constructor
  · rw [copyFile_ends_iff]
    rintro ⟨j, hread, -⟩
    exact hread rfl
  · have hret := answerBy_returns (fun _ => .upTo 4096) (fun _ => .upTo 0)
      (storeSt flat ⟨0, 0, 0, 0, 0, 0⟩ [97] [] 1) .fresh
    have hzero : (Prog.exec (answerBy (fun _ => .upTo 4096) fun _ => .upTo 0)
        (storeSt flat ⟨0, 0, 0, 0, 0, 0⟩ [97] [] 1) (0, .fresh)).1 = some 0 := rfl
    rw [hzero] at hret
    refine ⟨_, hret, fun hclose => ?_⟩
    rw [(storeSt_returns (by decide) State.fresh_addressed hret).2] at hclose
    have hflushed := (close_fputs_iff _ _).mp hclose
    have hlen : 0 < (State.fresh.manifest.buffer ++ lineText flat ⟨0, 0, 0, 0, 0, 0⟩ [97] []).length := by
      rw [lineText, List.length_append, List.length_append, List.length_singleton]
      omega
    have hfull := hflushed 0 (by rwa [Nat.zero_mul])
    rw [Outcome.full_iff, Outcome.moved, Option.some.injEq, Nat.zero_min, BUFSIZ] at hfull
    omega

end Storing
end Dedupe
end Miui
