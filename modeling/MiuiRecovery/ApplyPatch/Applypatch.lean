import MiuiRecovery.ApplyPatch.Storage
import MiuiRecovery.Lib.Prog

/-!
# applypatch

`applypatch` and `GenerateTarget` (`applypatch.c`), `SaveFileContents`, `FileSink`, `WriteToPartition`
and `MakeFreeSpaceOnCache` (`freecache.c`) as programs over the calls that change files and
partitions, and what these calls do to a `Storage`.

* `storageSem`: every truncation, write, unlink and rename is a step of its own; a partition that is
  being written holds anything.
-/

namespace Miui

open Prog (Sem Reaches Returns call)

/-- The data and the size of a `FileContents`; without data the size is what a failed load left. -/
structure FileContents where
  data : Option Bytes
  size : Nat

/-- The calls of `applypatch`. -/
inductive PatchOp : Type → Type
  /-- `LoadFileContents(filename, …, RETOUCH_DO_MASK)` -/
  | loadFileContents (filename : Bytes) : PatchOp FileContents
  | freeSpaceForFile (filename : Bytes) : PatchOp Nat
  /-- the regular files that `readdir` and `stat` find in `/cache` and `/cache/recovery/otatest` -/
  | regularFiles : PatchOp (List Bytes)
  /-- the files that a process has open: `none` where `/proc` cannot be read -/
  | openFiles : PatchOp (Option (List Bytes))
  /-- `open(filename, O_WRONLY | O_CREAT | O_TRUNC, …)` -/
  | openTrunc (filename : Bytes) : PatchOp Bool
  /-- `write` at the end of the open file -/
  | write (filename data : Bytes) : PatchOp Int
  | chmod (filename : Bytes) : PatchOp Bool
  | chown (filename : Bytes) : PatchOp Bool
  | unlink (filename : Bytes) : PatchOp Unit
  | rename (oldname newname : Bytes) : PatchOp Bool
  /-- `WriteToPartition` finds the partition and starts to write -/
  | beginWrite (type : PartitionType) (partition : Bytes) : PatchOp Bool
  /-- `WriteToPartition` ends: everything is written and verified, or not -/
  | finishWrite (type : PartitionType) (partition data : Bytes) : PatchOp Bool

/-! ## Files -/

/-- `FileSink`: whether it wrote everything. -/
def fileSink (filename data : Bytes) : Prog PatchOp Bool :=
  if data = [] then pure true
  else .op (.write filename data) fun wrote =>
    if 0 < wrote then fileSink filename (data.drop wrote.toNat) else pure false
termination_by data.length
decreasing_by
  have : 0 < data.length := List.length_pos_iff.mpr ‹data ≠ []›
  rw [List.length_drop]
  omega

/-- `FileSink(file->data, file->size, &fd)`: a write from the null pointer fails, one of no bytes is not
made. -/
def sinkContents (filename : Bytes) (file : FileContents) : Prog PatchOp Bool :=
  match file.data with
  | some data => fileSink filename data
  | none => pure (file.size == 0)

/-- The owner and the mode. -/
def setMode (filename : Bytes) : Prog PatchOp Bool := do
  if ← call (.chmod filename) then call (.chown filename) else pure false

/-- `SaveFileContents`: whether it returns 0. -/
def saveFileContents (filename : Bytes) (file : FileContents) : Prog PatchOp Bool := do
  if ← call (.openTrunc filename) then
    if ← sinkContents filename file then setMode filename else pure false
  else pure false

/-- The files that `FindExpendableFiles` lists. -/
def findExpendableFiles : Prog PatchOp (Option (List Bytes)) := do
  let files ← call .regularFiles
  let names := files.filter fun path => path ≠ CACHE_TEMP_SOURCE
  match ← call .openFiles with
  | none => pure none
  | some links => pure (some (names.filter fun name => name ∉ links))

/-- The loop of `MakeFreeSpaceOnCache`: the space that is free after it. -/
def deleteFiles (bytes_needed : Nat) : List Bytes → Nat → Prog PatchOp Nat
  | [], free_now => pure free_now
  | name :: names, free_now =>
    if free_now < bytes_needed then do
      call (.unlink name)
      let free_now ← call (.freeSpaceForFile (Bytes.ascii "/cache"))
      deleteFiles bytes_needed names free_now
    else pure free_now

/-- `MakeFreeSpaceOnCache`: whether it returns 0. -/
def makeFreeSpaceOnCache (bytes_needed : Nat) : Prog PatchOp Bool := do
  let free_now ← call (.freeSpaceForFile (Bytes.ascii "/cache"))
  if bytes_needed ≤ free_now then pure true
  else
    match ← findExpendableFiles with
    | none => pure false
    | some names => do
      let free_now ← deleteFiles bytes_needed names free_now
      pure (decide (bytes_needed ≤ free_now))

/-- `WriteToPartition`: whether it returns 0. -/
def writeToPartition (data target : Bytes) : Prog PatchOp Bool :=
  match partitionOf target with
  | none => pure false
  | some (type, partition) => do
    if ← call (.beginWrite type partition) then call (.finishWrite type partition data)
    else pure false

/-! ## GenerateTarget -/

/-- The arguments of `applypatch`; `num_patches` is the number of the pairs. -/
structure PatchArgs where
  source_filename : Bytes
  target_filename : Bytes
  target_sha1_str : Bytes
  target_size : Nat
  patches : List (Bytes × Value)
  bonus_data : Option Bytes

/-- The arguments of `GenerateTarget`. -/
structure GenerateArgs where
  source_file : FileContents
  source_patch_value : Option Value
  copy_file : FileContents
  copy_patch_value : Option Value
  source_filename : Bytes
  target_filename : Bytes
  target_sha1 : Digest
  target_size : Nat
  bonus_data : Option Bytes

variable (e : Env) (g : GenerateArgs)

/-- The directory at the top of the target's path. -/
def targetFs (target_filename : Bytes) : Bytes :=
  target_filename.take 1 ++ (target_filename.drop 1).takeWhile (· != 47)

/-- Make room in the cache and back up the source there. -/
def backUpSource : Prog PatchOp Bool := do
  if ← makeFreeSpaceOnCache g.source_file.size then saveFileContents CACHE_TEMP_SOURCE g.source_file
  else pure false

/-- Is there enough room in the target file system? -/
def enoughSpace (retry : Nat) : Prog PatchOp Bool :=
  if 0 < retry then do
    let free_space ← call (.freeSpaceForFile (targetFs g.target_filename))
    pure (decide (256 * 1024 < free_space ∧ g.target_size * 3 % 2 ^ 32 / 2 < free_space))
  else pure false

/-- Back up the source, then remove it. -/
def moveSource : Prog PatchOp (Option (Nat × Bool)) := do
  if ← backUpSource g then
    call (.unlink g.source_filename)
    let _ ← call (.freeSpaceForFile (targetFs g.target_filename))
    pure (some (0, true))
  else pure none

/-- The first half of a round: `retry` and `made_copy` behind it, `none` where the function returns 1. -/
def makeRoom (retry : Nat) : Prog PatchOp (Option (Nat × Bool)) := do
  if isPartition g.target_filename then
    -- "We still write the original source to cache, in case the partition write is interrupted."
    if ← backUpSource g then pure (some (0, true)) else pure none
  else if ← enoughSpace g retry then pure (some (retry, false))
  else if g.source_patch_value.isNone then pure (some (0, false))
  -- "not enough free space for target but source is partition"
  else if isPartition g.source_filename then pure none
  else moveSource g

/-- The `.patch` file next to the target. -/
def outname (target_filename : Bytes) : Bytes := target_filename ++ Bytes.ascii ".patch"

/-- The chunks go through `MemorySink`, which has room for `size` bytes. -/
def memorySink (size : Nat) (chunks : List Bytes) : Bool := decide (chunks.flatten.length ≤ size)

/-- The chunks go through `FileSink`, until it fails. -/
def sinkChunks (filename : Bytes) : List Bytes → Prog PatchOp Bool
  | [] => pure true
  | chunk :: chunks => do
    if ← fileSink filename chunk then sinkChunks filename chunks else pure false

/-- The patcher that the header asks for, with what it makes of the data. -/
def applyPatcher (data patch : Bytes) (bonus_data : Option Bytes) : Option (List Bytes × Int) :=
  if patch.take 8 = Bytes.ascii "BSDIFF40" then some (e.applyBSDiffPatch data patch)
  else if patch.take 8 = Bytes.ascii "IMGDIFF2" then some (e.applyImagePatch data patch bonus_data)
  else none

/-- `source_to_use` and `patch`. -/
def sourceToUse : Option (Bytes × Value) :=
  match g.source_patch_value with
  | some patch => g.source_file.data.map fun data => (data, patch)
  | none => g.copy_patch_value.bind fun patch => g.copy_file.data.map fun data => (data, patch)

/-- How a round ends. -/
inductive Round
  | returns (ret : Int)
  | patched (output : Bytes) (made_copy : Bool)
  | failed

/-- Open the output, where it is a file. -/
def openOutput : Prog PatchOp Bool :=
  if isPartition g.target_filename then pure true
  else call (.openTrunc (outname g.target_filename))

/-- Whether the sink takes what the patcher hands to it. -/
def sinkOutput (chunks : List Bytes) : Prog PatchOp Bool :=
  if isPartition g.target_filename then pure (memorySink g.target_size chunks)
  else sinkChunks (outname g.target_filename) chunks

def unlinkOutput : Prog PatchOp Unit :=
  if isPartition g.target_filename then pure ()
  else call (.unlink (outname g.target_filename))

/-- The patcher and what follows where its result is not 0. -/
def runPatcher (retry : Nat) (made_copy : Bool) (chunks : List Bytes) (status : Int) :
    Prog PatchOp Round := do
  let taken ← sinkOutput g chunks
  if taken = true ∧ status = 0 then pure (.patched chunks.flatten made_copy)
  else if retry = 0 then pure (.returns 1)
  else do
    unlinkOutput g
    pure .failed

/-- The second half of a round. -/
def patchTarget (retry : Nat) (made_copy : Bool) : Prog PatchOp Round :=
  match sourceToUse g with
  | none => pure (.returns 1)
  | some (data, patch) =>
    if patch.type ≠ .VAL_BLOB then pure (.returns 1)
    else do
      if ← openOutput g then
        match applyPatcher e data patch.data g.bonus_data with
        -- "Unknown patch file format"
        | none => pure (.returns 1)
        | some (chunks, status) => runPatcher g retry made_copy chunks status
      else pure (.returns 1)

/-- One pass through the loop. -/
def generateRound (retry : Nat) : Prog PatchOp Round := do
  match ← makeRoom g retry with
  | none => pure (.returns 1)
  | some (retry', made_copy) => patchTarget e g retry' made_copy

/-- The `do … while (retry-- > 0)` loop. -/
def generateLoop : Nat → Prog PatchOp Round
  | 0 => generateRound e g 0
  | retry + 1 => do
    match ← generateRound e g (retry + 1) with
    | .failed => generateLoop retry
    | r => pure r

/-- Put the `.patch` file in the place of the target: whether that works. -/
def renameOutput : Prog PatchOp Bool := do
  if ← setMode (outname g.target_filename) then
    call (.rename (outname g.target_filename) g.target_filename)
  else pure false

def placeOutput (output : Bytes) : Prog PatchOp Bool :=
  if isPartition g.target_filename then writeToPartition output g.target_filename
  else renameOutput g

/-- `if (made_copy) unlink(CACHE_TEMP_SOURCE)` -/
def dropCopy (made_copy : Bool) : Prog PatchOp Unit :=
  if made_copy then call (.unlink CACHE_TEMP_SOURCE) else pure ()

/-- Behind the loop: check the output and put it in the place of the target. -/
def installOutput (output : Bytes) (made_copy : Bool) : Prog PatchOp Int :=
  -- "patch did not produce expected sha1"
  if e.SHA output ≠ g.target_sha1 then pure 1
  else do
    if ← placeOutput g output then
      dropCopy made_copy
      pure 0
    else pure 1

def generateTarget : Prog PatchOp Int := do
  match ← generateLoop e g 1 with
  | .returns ret => pure ret
  | .failed => pure 1
  | .patched output made_copy => installOutput e g output made_copy

/-! ## applypatch -/

/-- `"-"` means the source. -/
def PatchArgs.target (a : PatchArgs) : Bytes :=
  if a.target_filename = Bytes.ascii "-" then a.source_filename else a.target_filename

/-- The patch for loaded data. -/
def PatchArgs.patchFor (a : PatchArgs) (data : Bytes) : Option Value :=
  findMatchingPatch (e.SHA data) a.patches

def PatchArgs.generate (a : PatchArgs) (target_sha1 : Digest) (source_file : FileContents)
    (source_patch_value : Option Value) (copy_file : FileContents)
    (copy_patch_value : Option Value) : GenerateArgs where
  source_file := source_file
  source_patch_value := source_patch_value
  copy_file := copy_file
  copy_patch_value := copy_patch_value
  source_filename := a.source_filename
  target_filename := a.target
  target_sha1 := target_sha1
  target_size := a.target_size
  bonus_data := a.bonus_data

/-- `applypatch` where the source is bad: the copy in the cache. -/
def patchFromCopy (a : PatchArgs) (target_sha1 : Digest) (size : Nat) : Prog PatchOp Int := do
  let copy_file ← call (.loadFileContents CACHE_TEMP_SOURCE)
  match copy_file.data.bind (a.patchFor e) with
  | none => pure 1
  | some patch => generateTarget e (a.generate target_sha1 ⟨none, size⟩ none copy_file (some patch))

/-- The source, unless it is the target that has been loaded. -/
def loadSource (a : PatchArgs) (target_file : FileContents) : Prog PatchOp FileContents :=
  if target_file.data = none ∨ a.target ≠ a.source_filename then
    call (.loadFileContents a.source_filename)
  else pure target_file

def applypatch (a : PatchArgs) : Prog PatchOp Int :=
  match parseSha1 a.target_sha1_str with
  | none => pure 1
  | some target_sha1 => do
    let target_file ← call (.loadFileContents a.target)
    -- "already target; no patch needed"
    if target_file.data.map e.SHA = some target_sha1 then pure 0
    else
      let source_file ← loadSource a target_file
      match source_file.data.bind (a.patchFor e) with
      | some patch => generateTarget e (a.generate target_sha1 source_file (some patch) ⟨none, 0⟩ none)
      | none => patchFromCopy e a target_sha1 source_file.size

/-! ## Storage -/

def Storage.setFile (s : Storage) (filename : Bytes) (data : Option Bytes) : Storage :=
  { s with files := fun f => if f = filename then data else s.files f }

@[simp] theorem Storage.setFile_files (s : Storage) (f : Bytes) (data : Option Bytes) :
    (s.setFile f data).files f = data := if_pos rfl

theorem Storage.setFile_files_ne (s : Storage) {f f' : Bytes} (data : Option Bytes) (h : f' ≠ f) :
    (s.setFile f data).files f' = s.files f' := if_neg h

@[simp] theorem Storage.setFile_partitions (s : Storage) (f : Bytes) (data : Option Bytes) :
    (s.setFile f data).partitions = s.partitions := rfl

def Storage.setPartition (s : Storage) (type : PartitionType) (partition content : Bytes) : Storage :=
  { s with partitions := fun t p =>
      if t = type ∧ p = partition then some content else s.partitions t p }

/-- The files that `FindExpendableFiles` looks at lie directly in one of two directories. -/
def inCacheDir (path : Bytes) : Bool :=
  [Bytes.ascii "/cache/", Bytes.ascii "/cache/recovery/otatest/"].any fun dir =>
    dir.isPrefixOf path && !(path.drop dir.length).contains 47

/-- What the calls do. A write can take a part of its data, and a partition that is being written can
hold anything: any mix of old, erased and new blocks. -/
def storageSem : Sem PatchOp Storage
  | _, .loadFileContents filename, s, r, s' =>
    s' = s ∧ r.data = loadFileContents e s filename ∧ ∀ data, r.data = some data → r.size = data.length
  | _, .freeSpaceForFile _, s, _, s' => s' = s
  | _, .regularFiles, s, r, s' => s' = s ∧ ∀ path ∈ r, inCacheDir path = true
  | _, .openFiles, s, _, s' => s' = s
  | _, .openTrunc filename, s, r, s' => if r then s' = s.setFile filename (some []) else s' = s
  | _, .write filename data, s, r, s' =>
    if 0 < r then
      r.toNat ≤ data.length ∧
        s' = s.setFile filename ((s.files filename).map fun old => old ++ data.take r.toNat)
    else s' = s
  | _, .chmod _, s, _, s' => s' = s
  | _, .chown _, s, _, s' => s' = s
  | _, .unlink filename, s, _, s' => s' = s ∨ s' = s.setFile filename none
  | _, .rename oldname newname, s, r, s' =>
    if r then ∃ data, s.files oldname = some data ∧
      s' = (s.setFile newname (some data)).setFile oldname none
    else s' = s
  | _, .beginWrite type partition, s, r, s' =>
    if r then ∃ old torn, s.partitions type partition = some old ∧ torn.length = old.length ∧
      s' = s.setPartition type partition torn
    else s' = s
  | _, .finishWrite type partition data, s, r, s' =>
    ∃ old new, s.partitions type partition = some old ∧ new.length = old.length ∧
      s' = s.setPartition type partition new ∧ (r = true → data <+: new)

end Miui
