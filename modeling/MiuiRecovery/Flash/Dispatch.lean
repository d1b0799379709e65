import MiuiRecovery.Flash.RawCopy
import MiuiRecovery.Mtd.RawPartition
import MiuiRecovery.Updater.NullArgs

/-!
# Raw images by flash type

`flashutils.c`: three back ends for raw partitions, one of which is chosen by a type string, the path of the
partition, or what the device has; and `write_raw_image` (`updater/install.c`), which writes an image through it.

* `chooses_iff`: without a type, only a path is told apart, and a type that is not known hides the rest.
* `writeRawImage_iff`: for which arguments and devices `write_raw_image` returns the partition only if the image is
  on it.
-/

namespace Miui

namespace Flash

open Chunks Transfer Raw Copy

/-! ## flashutils.c -/

inductive FlashType
  | unsupported
  | unknown
  | mtd
  | mmc
  | bml
deriving DecidableEq

/-- Which of the paths that `device_flash_type` looks for exist. -/
structure Probes where
  boardBmlBoot : Bool
  emmc : Bool
  mtd : Bool

/-- `device_flash_type`, with what `the_flash_type` holds so far. -/
def deviceFlashType (probes : Probes) (the_flash_type : FlashType) : FlashType :=
  if the_flash_type = .unknown then
    if probes.boardBmlBoot then .bml
    else if probes.emmc then .mmc
    else if probes.mtd then .mtd
    else .unsupported
  else the_flash_type

def getFlashType (partitionType : Bytes) : FlashType :=
  if partitionType = Bytes.ascii "mtd" then .mtd
  else if partitionType = Bytes.ascii "emmc" then .mmc
  else if partitionType = Bytes.ascii "bml" then .bml
  else .unsupported

/-- `strstr(partition, s) != NULL` -/
def strstr (partition : Bytes) (s : String) : Bool := Bytes.ascii s <:+: partition

/-- `detect_partition`, where `device` is `device_flash_type()`. `none` stands for the dereference of `NULL` by
`strcmp`. -/
def detectPartition (device : FlashType) (partitionType : Option Bytes) (partition : Bytes) : Option FlashType := do
  let type ← (
    if strstr partition "/dev/block/mtd" then some .mtd
    else if strstr partition "/dev/block/mmc" then some .mmc
    else if strstr partition "/dev/block/bml" then some .bml
    else
      match partitionType with
      | none => none
      | some t =>
        if t = Bytes.ascii "emmc" then some .mmc
        else if t = Bytes.ascii "bml" then some .bml
        else if t = Bytes.ascii "mtd" then some .mtd
        else some device)
  match partitionType with
  | none => some type
  | some t => some (getFlashType t)

/-- The back end whose command a `switch (type)` calls. -/
inductive BackEnd
  | mtd
  | mmc
  | bml
deriving DecidableEq

def backEndOf : FlashType → Option BackEnd
  | .mtd => some .mtd
  | .mmc => some .mmc
  | .bml => some .bml
  | _ => none

/-- The back end that `backup_raw_partition` and `erase_raw_partition` call, and that `restore_raw_partition`
calls. -/
def rawPartition (device : FlashType) (partitionType : Option Bytes) (partition : Bytes) : Option (Option BackEnd) :=
  (detectPartition device partitionType partition).map backEndOf

/-- The back end that `erase_partition` and `mount_partition` call. -/
def anyPartition (device : FlashType) (partition : Bytes) : Option (Option BackEnd) :=
  (detectPartition device none partition).map backEndOf

/-! ## The back end that is meant -/

/-- The back end with this name. -/
def named (partitionType : Bytes) : Option BackEnd :=
  if partitionType = Bytes.ascii "mtd" then some .mtd
  else if partitionType = Bytes.ascii "emmc" then some .mmc
  else if partitionType = Bytes.ascii "bml" then some .bml
  else none

/-- The back end of a path below `/dev/block`. -/
def pathType (partition : Bytes) : Option BackEnd :=
  if strstr partition "/dev/block/mtd" then some .mtd
  else if strstr partition "/dev/block/mmc" then some .mmc
  else if strstr partition "/dev/block/bml" then some .bml
  else none

/-- The type if it is known, else the path, else what the device has. -/
def meant (device : FlashType) (partitionType : Option Bytes) (partition : Bytes) : Option BackEnd :=
  match partitionType.bind named with
  | some b => some b
  | none =>
    match pathType partition with
    | some b => some b
    | none => backEndOf device

theorem backEndOf_getFlashType (t : Bytes) : backEndOf (getFlashType t) = named t := by
  unfold getFlashType named
  split
  · rfl
  split
  · rfl
  split <;> rfl

theorem detectPartition_null (device : FlashType) (partition : Bytes) :
    (detectPartition device none partition).map backEndOf = (pathType partition).map some := by
  unfold detectPartition pathType
  split
  · rfl
  split
  · rfl
  split <;> rfl

theorem detectPartition_typed (device : FlashType) (t partition : Bytes) :
    detectPartition device (some t) partition = some (getFlashType t) := by
  unfold detectPartition
  simp only
  repeat' split
  all_goals rfl

/-- The back end that is meant is chosen exactly where there is no type and the partition is a path, where the type is
known, or where it is not and neither path nor device say anything. -/
theorem chooses_iff (device : FlashType) (partitionType : Option Bytes) (partition : Bytes) :
    rawPartition device partitionType partition = some (meant device partitionType partition) ↔
      match partitionType with
      | none => (pathType partition).isSome
      | some t => (named t).isSome ∨ pathType partition = none ∧ backEndOf device = none := by
  rw [rawPartition]
  cases partitionType with
  | none =>
    rw [detectPartition_null, meant]
    cases pathType partition <;> simp
  | some t =>
    rw [detectPartition_typed, Option.map_some, backEndOf_getFlashType, meant, Option.bind_some]
    cases hnamed : named t with
    | some b => simp [hnamed]
    | none =>
      cases pathType partition with
      | some b => simp [hnamed]
      | none =>
        simp only [hnamed, Option.some.injEq, Option.isSome_none, Bool.false_eq_true, true_and, false_or]
        exact eq_comm

/-! ## The device -/

/-- What a partition of `/proc/mtd` is restored with. -/
structure MtdTarget where
  p : MtdPartition
  chip : Chip p
  opened : Bool
  reads : Nat → Nat

/-- What a file is copied to a device with. -/
structure CopyRun where
  opened : Bool
  seekable : Bool
  reads : Nat → Nat
  writes : Nat → Outcome

/-- What `restore_internal` is run with. -/
structure RestoreRun where
  opened : Bool
  unlocked : Bool
  reads : Nat → Outcome
  writes : Nat → Outcome

structure Device where
  probes : Probes
  the_flash_type : FlashType
  /-- The files that can be opened. -/
  files : Bytes → Option Bytes
  /-- `mtd_find_partition_by_name` -/
  mtd : Bytes → Option MtdTarget
  /-- `device_index` of what `mmc_find_partition_by_name` finds -/
  mmc : Bytes → Option Bytes
  /-- The copy to a device. -/
  copying : Bytes → CopyRun
  /-- The restore to `BOARD_BML_BOOT`. -/
  boardBmlBoot : RestoreRun
  /-- The restore to another device behind it. -/
  bml : Bytes → RestoreRun

/-- What is on an MTD partition before, and what an erase leaves there. -/
structure Leftover (p : MtdPartition) where
  giveUp : Nat → Block p
  erase : Nat → Block p
  flash : Flash p
deriving Inhabited

/-- What is on the partition behind a restore. -/
inductive After
  | untouched
  | mtd (p : MtdPartition) (fl : Flash p)
  /-- What is written from the start of a device on. -/
  | disk (dst : Bytes)
  /-- The same in blocks of 4096 bytes. -/
  | blocks (dst : Bytes)

def After.StartsWith : After → Bytes → Prop
  | untouched, _ => False
  | mtd p fl, image => Stored fl (toBlocks p image)
  | disk dst, image => dst = image
  | blocks dst, image => dst = Copy.padded image

/-! ## The back ends -/

variable (d : Device) (g : ∀ p, Leftover p)

def cmdMtdRestore (partition filename : Bytes) : Int × After :=
  match d.files filename, d.mtd partition with
  | some file, some t =>
    let r := cmdMtdRestoreRawPartition (leaving t.chip (g t.p).giveUp (g t.p).erase) t.opened t.reads file
      (g t.p).flash
    (r.1, .mtd t.p r.2)
  | _, _ => (-1, .untouched)

/-- One of the two copies of `mmcutils.c`. -/
def copyTo (copy : Bool → Bool → (Nat → Nat) → (Nat → Outcome) → Bytes → Int × Bytes) (filename device : Bytes) :
    Int × After :=
  match d.files filename with
  | none => (-1, .untouched)
  | some file =>
    let run := d.copying device
    let r := copy run.opened run.seekable run.reads run.writes file
    (r.1, .disk r.2)

def cmdMmcRestoreRawPartition (partition filename : Bytes) : Int × After :=
  if partition.head? ≠ some 0x2f then
    match d.mmc partition with
    | none => (-1, .untouched)
    | some device => copyTo d mmcRawCopy filename device
  else copyTo d mmcRawDumpInternal filename partition

def restoreBml (run : RestoreRun) (filename : Bytes) : Option (Int × After) :=
  (restoreInternal (d.files filename).isSome run.opened run.unlocked run.reads run.writes
    ((d.files filename).getD [])).map fun r => (r.1, .blocks r.2)

def cmdBmlRestoreRawPartition (partition filename : Bytes) : Option (Int × After) :=
  if partition ≠ Bytes.ascii "boot" ∧ partition ≠ Bytes.ascii "recovery" ∧
      partition ≠ Bytes.ascii "recoveryonly" ∧ partition.head? ≠ some 0x2f then some (6, .untouched)
  else
    -- always the boot partition first, except for recoveryonly
    let boot :=
      if partition ≠ Bytes.ascii "recoveryonly" then restoreBml d d.boardBmlBoot filename
      else some (0, .untouched)
    boot.bind fun r =>
      if r.1 ≠ 0 then some r
      else if partition = Bytes.ascii "recovery" ∨ partition = Bytes.ascii "recoveryonly" then
        restoreBml d (d.bml (Bytes.ascii "/dev/block/bml8")) filename
      else if partition.head? = some 0x2f then restoreBml d (d.bml partition) filename
      else some r

/-- The `switch` of `restore_raw_partition`. -/
def callBackEnd (b : Option BackEnd) (partition filename : Bytes) : Option (Int × After) :=
  match b with
  | some .mtd => some (cmdMtdRestore d g partition filename)
  | some .mmc => some (cmdMmcRestoreRawPartition d partition filename)
  | some .bml => cmdBmlRestoreRawPartition d partition filename
  | none => some (-1, .untouched)

def restoreRawPartition (partitionType : Option Bytes) (partition filename : Bytes) : Option (Int × After) :=
  (rawPartition (deviceFlashType d.probes d.the_flash_type) partitionType partition).bind fun b =>
    callBackEnd d g b partition filename

theorem restoreRawPartition_path {partition : Bytes} {b : BackEnd} (hb : pathType partition = some b)
    (filename : Bytes) :
    restoreRawPartition d g none partition filename = callBackEnd d g (some b) partition filename := by
  rw [restoreRawPartition, rawPartition, detectPartition_null, hb]
  rfl

/-! ## updater/install.c -/

/-- The file name that `contents->data` are: only the data of a string end in a zero. -/
def filenameOf : Edify.Value → Option Bytes
  | .string data => some data
  | .blob _ _ => none

/-- The answers to the operations of `write_raw_image`, whose arguments are evaluated to `args`. -/
def answer (args : Updater.Outcomes) : ∀ β : Type, Edify.EdifyOp β → After → Option (β × After)
  | _, .evaluate _, _ => none
  | _, .evaluateValue i, s => args[i]?.map fun v => (v, s)
  | _, .free _, s => some ((), s)
  | _, .source _, _ => none
  | _, .setErrmsg _, s => some ((), s)
  | _, .call c, s =>
    if c.fn = "restore_raw_partition" then
      match args[0]?.join with
      | none => none
      | some contents =>
        (filenameOf contents).bind fun filename =>
          (restoreRawPartition d g none (c.args.getD 0 []) filename).map fun r => (⟨r.1, []⟩, r.2)
    else some (⟨0, []⟩, s)
  | _, .crash, _ => none

/-- A run of `write_raw_image`: what it returns and what is on the partition, or `none` where a `NULL` or a blob is
used for a string, or memory before a buffer is written. -/
def writeRawImage (name : Bytes) (contents partition_value : Option Edify.Value) :
    Option (Option Edify.Value × After) :=
  Prog.exec? (answer d g [contents, partition_value]) (Updater.writeRawImageFn name) .untouched

/-- The run of the function on two values. -/
theorem writeRawImage_eq (name : Bytes) (contents partition_value : Edify.Value) :
    writeRawImage d g name (some contents) (some partition_value) =
      match partition_value with
      | .blob _ _ => some (none, .untouched)
      | .string partition =>
        if partition = [] ∨ contents = .string [] then some (none, .untouched)
        else
          (filenameOf contents).bind fun filename =>
            (restoreRawPartition d g none partition filename).map fun r =>
              (some (.string (if r.1 = 0 then partition else [])), r.2) := by
  have hread : Prog.exec? (answer d g [some contents, some partition_value]) (Edify.readValueArgs 2) .untouched =
      some (some [contents, partition_value], .untouched) := rfl
  rw [writeRawImage, Updater.writeRawImageFn, Updater.withArgs, Prog.exec?_bind, hread, Option.bind_some]
  simp only [List.getD_cons_zero, List.getD_cons_succ]
  cases partition_value with
  | blob size data => rfl
  | string partition =>
    have hstring : ¬ Updater.isString (.string partition) = false := by simp [Updater.isString]
    rw [Updater.writeRawImageBody, if_neg hstring]
    by_cases hdata : Updater.dataOf (.string partition) = []
    · have hpart : partition = [] := hdata
      rw [if_pos hdata]
      simp only [hpart, true_or, ↓reduceIte]
      rfl
    have hpart : ¬ partition = [] := hdata
    rw [if_neg hdata]
    by_cases hempty : contents = .string []
    · subst hempty
      simp only [or_true, ↓reduceIte]
      rfl
    have hfile : ¬ (Updater.isString contents && Updater.dataOf contents == []) = true := by
      cases contents with
      | string data => simpa [Updater.isString, Updater.dataOf] using hempty
      | blob size data => simp [Updater.isString]
    rw [if_neg hfile, Prog.exec?_bind]
    simp only [hpart, hempty, or_self, ↓reduceIte]
    cases hname : filenameOf contents with
    | none =>
      have hnone : Prog.exec? (answer d g [some contents, some (.string partition)])
          (Edify.sys "restore_raw_partition" [Updater.dataOf (.string partition), Updater.dataOf contents] [])
          .untouched = none := by
        simp [Edify.sys, Prog.call, Prog.exec?, answer, hname]
      rw [hnone]
      rfl
    | some filename =>
      have hcall : Prog.exec? (answer d g [some contents, some (.string partition)])
          (Edify.sys "restore_raw_partition" [Updater.dataOf (.string partition), Updater.dataOf contents] [])
          .untouched = (restoreRawPartition d g none partition filename).map fun r => (⟨r.1, []⟩, r.2) := by
        simp only [Edify.sys, Prog.call, Prog.exec?, answer, hname, ↓reduceIte, List.getElem?_cons_zero,
          Option.join_some, Option.bind_some, List.getD_cons_zero, Updater.dataOf]
        cases restoreRawPartition d g none partition filename <;> rfl
      rw [hcall, Option.bind_some]
      cases restoreRawPartition d g none partition filename <;> rfl

/-! ## What a restore tells -/

/-- The image is on the partition. -/
def Holds (contents : Option Edify.Value) (after : After) : Prop :=
  match contents with
  | none => False
  | some (.string filename) => ∃ image, d.files filename = some image ∧ after.StartsWith image
  | some (.blob _ data) => after.StartsWith data

/-- For the restore of an MTD partition: see `restores_iff`. -/
def MtdTold (t : MtdTarget) (image : Bytes) : Prop :=
  t.opened = false ∨ takes t.chip (wholes t.p.erase_size_pos (freadAll BUFSIZ t.reads 0 image).flatten) 0 = false ∨
    takes t.chip (toBlocks t.p (freadAll BUFSIZ t.reads 0 image).flatten) 0 = true ∧
      toBlocks t.p (freadAll BUFSIZ t.reads 0 image).flatten = toBlocks t.p image

/-- For a copy to a device: see `copyFile_iff`. -/
def CopyTold (run : CopyRun) (image : Bytes) : Prop :=
  run.opened = false ∨
  (tell run.seekable image % 512 ≠ 0 ∧ (freadAll BUFSIZ run.reads 0 image).flatten = image ∧
    Flushed BUFSIZ run.writes 0 image.length) ∨
  (tell run.seekable image % 512 = 0 ∧ ((freadAll BUFSIZ run.reads 0 image).flatten ≠ image ∨
    ¬ FlushedFull BUFSIZ run.writes 0 image.length ∨ Flushed BUFSIZ run.writes 0 image.length))

/-- For the restore of a BML device: see `restoreInternal_iff`. -/
def RestoreTold (run : RestoreRun) (image : Bytes) : Prop :=
  run.opened = false ∨ run.unlocked = false ∨ Copy.Rounds RoundOk run.reads run.writes 0 image

/-- What the back end of a path reports is true. Before a BML device the boot partition is restored, and where that
fails the device is not. -/
def Told (partition image : Bytes) : Prop :=
  match pathType partition with
  | none => False
  | some .mtd => ∀ t, d.mtd partition = some t → MtdTold t image
  | some .mmc =>
    ∀ device, (if partition.head? = some 0x2f then some partition else d.mmc partition) = some device →
      CopyTold (d.copying device) image
  | some .bml => partition.head? = some 0x2f → d.boardBmlBoot.opened = false ∨ d.boardBmlBoot.unlocked = false ∨
      Copy.Rounds ReadOk d.boardBmlBoot.reads d.boardBmlBoot.writes 0 image ∧
        (Copy.Rounds WriteOk d.boardBmlBoot.reads d.boardBmlBoot.writes 0 image → RestoreTold (d.bml partition) image)

/-- Every run on leftovers comes to an end in which a result of 0 tells that the image is there. -/
def RestoresTruly (partition filename : Bytes) : Prop :=
  ∀ g, ∃ r after, restoreRawPartition d g none partition filename = some (r, after) ∧
    (r = 0 → ∃ image, d.files filename = some image ∧ after.StartsWith image)

/-- A path is none of the three names. -/
theorem pathType_name {partition : Bytes} (h : (pathType partition).isSome) : partition ≠ Bytes.ascii "boot" ∧
    partition ≠ Bytes.ascii "recovery" ∧ partition ≠ Bytes.ascii "recoveryonly" := by
  refine ⟨?_, ?_, ?_⟩ <;> rintro rfl <;> revert h <;> decide

/-- The boot partition comes first. -/
theorem cmdBmlRestore_path {partition : Bytes} (filename : Bytes) (hpath : (pathType partition).isSome) :
    cmdBmlRestoreRawPartition d partition filename =
      if partition.head? = some 0x2f then
        (restoreBml d d.boardBmlBoot filename).bind fun r =>
          if r.1 ≠ 0 then some r else restoreBml d (d.bml partition) filename
      else some (6, .untouched) := by
  obtain ⟨hboot, hrecovery, honly⟩ := pathType_name hpath
  rw [cmdBmlRestoreRawPartition]
  by_cases hslash : partition.head? = some 0x2f
  · simp [hslash, hrecovery, honly]
  · simp [hslash, hboot, hrecovery, honly]

/-- A restore that reaches no file has failed. -/
theorem restoreRawPartition_missing {filename : Bytes} (hfile : d.files filename = none) (partition : Bytes)
    (hpath : (pathType partition).isSome) :
    ∃ r after, restoreRawPartition d g none partition filename = some (r, after) ∧ r ≠ 0 := by
  obtain ⟨b, hb⟩ := Option.isSome_iff_exists.mp hpath
  rw [restoreRawPartition_path d g hb]
  cases b with
  | mtd => exact ⟨-1, .untouched, by simp [callBackEnd, cmdMtdRestore, hfile], by decide⟩
  | mmc =>
    refine ⟨-1, .untouched, ?_, by decide⟩
    simp only [callBackEnd, cmdMmcRestoreRawPartition, copyTo, hfile]
    split
    · split <;> rfl
    · rfl
  | bml =>
    rw [callBackEnd, cmdBmlRestore_path d filename hpath]
    by_cases hslash : partition.head? = some 0x2f
    · have hboot : restoreBml d d.boardBmlBoot filename = some (2, .blocks []) := by
        rw [restoreBml, hfile]
        rfl
      rw [if_pos hslash, hboot]
      exact ⟨2, .blocks [], rfl, by decide⟩
    · rw [if_neg hslash]
      exact ⟨6, .untouched, rfl, by decide⟩

theorem cmdMtdRestore_iff {partition filename image : Bytes} (hfile : d.files filename = some image) :
    (∀ g, (cmdMtdRestore d g partition filename).1 = 0 →
      (cmdMtdRestore d g partition filename).2.StartsWith image) ↔
    ∀ t, d.mtd partition = some t → MtdTold t image := by
  cases ht : d.mtd partition with
  | none =>
    simp [cmdMtdRestore, ht]
  | some t =>
    simp only [Option.some.injEq, forall_eq', MtdTold]
    rw [← restores_iff t.chip t.opened t.reads image]
    simp only [cmdMtdRestore, ht, hfile, After.StartsWith]
    constructor
    · intro h giveUp erase fl
      classical
      have hg := h (Function.update (fun p => default) t.p ⟨giveUp, erase, fl⟩)
      rw [Function.update_self] at hg
      exact hg
    · intro h g
      exact h (g t.p).giveUp (g t.p).erase (g t.p).flash

theorem copyTo_iff (copy : Bool → Bool → (Nat → Nat) → (Nat → Outcome) → Bytes → Int × Bytes) (hcopy : copy = copyFile)
    {filename device image : Bytes} (hfile : d.files filename = some image) :
    ((copyTo d copy filename device).1 = 0 → (copyTo d copy filename device).2.StartsWith image) ↔
      CopyTold (d.copying device) image := by
  subst hcopy
  rw [CopyTold, ← copyFile_iff]
  simp only [copyTo, hfile, After.StartsWith]

theorem cmdMmcRestore_iff {partition filename image : Bytes} (hfile : d.files filename = some image) :
    ((cmdMmcRestoreRawPartition d partition filename).1 = 0 →
      (cmdMmcRestoreRawPartition d partition filename).2.StartsWith image) ↔
    ∀ device, (if partition.head? = some 0x2f then some partition else d.mmc partition) = some device →
      CopyTold (d.copying device) image := by
  rw [cmdMmcRestoreRawPartition]
  by_cases hslash : partition.head? = some 0x2f
  · rw [if_neg (not_not_intro hslash), if_pos hslash, copyTo_iff d mmcRawDumpInternal rfl hfile]
    simp
  · rw [if_pos hslash, if_neg hslash]
    cases d.mmc partition with
    | none => simp
    | some device =>
      simp only [Option.some.injEq, forall_eq']
      exact copyTo_iff d mmcRawCopy rfl hfile

theorem restoreBml_file (run : RestoreRun) {filename image : Bytes} (hfile : d.files filename = some image) :
    restoreBml d run filename =
      (restoreInternal true run.opened run.unlocked run.reads run.writes image).map fun r => (r.1, .blocks r.2) := by
  rw [restoreBml, hfile]
  rfl

theorem restoreBml_iff (run : RestoreRun) {filename image : Bytes} (hfile : d.files filename = some image) :
    (∃ r after, restoreBml d run filename = some (r, after) ∧ (r = 0 → after.StartsWith image)) ↔
      RestoreTold run image := by
  have hrun := restoreInternal_iff true run.opened run.unlocked run.reads run.writes image
  simp only [Copy.Restores, Bool.true_eq_false, false_or] at hrun
  simp only [RestoreTold, Copy.Rounds, Nat.zero_add]
  rw [← hrun, restoreBml_file d run hfile]
  cases restoreInternal true run.opened run.unlocked run.reads run.writes image with
  | none => simp
  | some r =>
    obtain ⟨ret, dst⟩ := r
    simp [After.StartsWith]

theorem restoreBml_ret (run : RestoreRun) {filename image : Bytes} (hfile : d.files filename = some image)
    (Q : Prop) : (∃ r after, restoreBml d run filename = some (r, after) ∧ (r = 0 → Q)) ↔
      run.opened = false ∨ run.unlocked = false ∨
        Copy.Rounds ReadOk run.reads run.writes 0 image ∧ (Copy.Rounds WriteOk run.reads run.writes 0 image → Q) := by
  have hrun := restoreInternal_ret true run.opened run.unlocked run.reads run.writes image Q
  simp only [Bool.true_eq_false, false_or] at hrun
  rw [← hrun, restoreBml_file d run hfile]
  cases restoreInternal true run.opened run.unlocked run.reads run.writes image with
  | none => simp
  | some r =>
    obtain ⟨ret, dst⟩ := r
    simp

theorem cmdBmlRestore_iff {partition filename image : Bytes} (hfile : d.files filename = some image)
    (hpath : (pathType partition).isSome) :
    (∃ r after, cmdBmlRestoreRawPartition d partition filename = some (r, after) ∧
      (r = 0 → after.StartsWith image)) ↔
    (partition.head? = some 0x2f → d.boardBmlBoot.opened = false ∨ d.boardBmlBoot.unlocked = false ∨
      Copy.Rounds ReadOk d.boardBmlBoot.reads d.boardBmlBoot.writes 0 image ∧
        (Copy.Rounds WriteOk d.boardBmlBoot.reads d.boardBmlBoot.writes 0 image →
          RestoreTold (d.bml partition) image)) := by
  rw [cmdBmlRestore_path d filename hpath]
  by_cases hslash : partition.head? = some 0x2f
  · simp only [hslash, ↓reduceIte, true_implies]
    rw [← restoreBml_ret d d.boardBmlBoot hfile, ← restoreBml_iff d (d.bml partition) hfile]
    cases restoreBml d d.boardBmlBoot filename with
    | none => simp
    | some r =>
      obtain ⟨ret, after⟩ := r
      simp only [Option.bind_some, Option.some.injEq, Prod.mk.injEq]
      by_cases hret : ret = 0
      · subst hret
        simp
      · rw [if_pos hret]
        simp [hret]
  · simp [hslash]

theorem exists_pair {x : Int × After} {P : After → Prop} :
    (∃ r after, x = (r, after) ∧ (r = 0 → P after)) ↔ (x.1 = 0 → P x.2) := by
  obtain ⟨r, after⟩ := x
  simp

/-- A restore through a path ends truly exactly if its back end reports the truth. -/
theorem restoresTruly_iff (partition filename : Bytes) : RestoresTruly d partition filename ↔
    (pathType partition).isSome ∧ ∀ image, d.files filename = some image → Told d partition image := by
  cases hb : pathType partition with
  | none =>
    refine ⟨fun h => ?_, fun h => absurd h.1 (by simp)⟩
    obtain ⟨r, after, hr, -⟩ := h fun _ => default
    rw [restoreRawPartition, rawPartition, detectPartition_null, hb] at hr
    cases hr
  | some b =>
    have hpath : (pathType partition).isSome = true := by rw [hb]; rfl
    cases hfile : d.files filename with
    | none =>
      simp only [Option.isSome_some, true_and, reduceCtorEq, false_implies, implies_true, iff_true]
      intro g
      obtain ⟨r, after, hr, hne⟩ := restoreRawPartition_missing d g hfile partition hpath
      exact ⟨r, after, hr, fun h => absurd h hne⟩
    | some image =>
      simp only [Option.isSome_some, true_and, Option.some.injEq, forall_eq', RestoresTruly,
        restoreRawPartition_path d _ hb, hfile, exists_eq_left', Told, hb]
      cases b with
      | mtd =>
        rw [← cmdMtdRestore_iff d hfile]
        simp only [callBackEnd, Option.some.injEq, exists_pair]
      | mmc =>
        rw [← cmdMmcRestore_iff d hfile]
        simp only [callBackEnd, Option.some.injEq, exists_pair]
        exact ⟨fun h => h fun _ => default, fun h _ => h⟩
      | bml =>
        rw [← cmdBmlRestore_iff d hfile hpath]
        exact ⟨fun h => h fun _ => default, fun h _ => h⟩

/-- `write_raw_image` on two arguments: it uses no `NULL` or blob for a string, and returns the partition only if the
image is on it. -/
def WritesTruly (name : Bytes) (contents partition_value : Option Edify.Value) : Prop :=
  ∀ g, ∃ r after, writeRawImage d g name contents partition_value = some (r, after) ∧
    ∀ partition, partition_value = some (.string partition) → r = some (.string partition) → Holds d contents after

/-- It does where an argument is missing, the partition is no name, or the file name is empty; and else for a file
name and a path whose back end reports the truth. -/
theorem writeRawImage_iff (name : Bytes) (contents partition_value : Option Edify.Value) :
    WritesTruly d name contents partition_value ↔
      contents = none ∨ (∀ partition, partition_value = some (.string partition) → partition = []) ∨
      ∃ filename partition, contents = some (.string filename) ∧ partition_value = some (.string partition) ∧
        (filename = [] ∨ (pathType partition).isSome ∧
          ∀ image, d.files filename = some image → Told d partition image) := by
  have hnull : ∀ v, (∀ g, writeRawImage d g name contents v = some (none, .untouched)) →
      WritesTruly d name contents v := fun v h g => ⟨none, .untouched, h g, fun _ _ hr => by cases hr⟩
  cases hcontents : contents with
  | none =>
    subst hcontents
    exact ⟨fun _ => .inl rfl, fun _ => hnull _ fun g => rfl⟩
  | some c =>
    cases partition_value with
    | none =>
      subst hcontents
      exact ⟨fun _ => .inr (.inl fun _ h => by cases h), fun _ => hnull _ fun g => rfl⟩
    | some v =>
      subst hcontents
      cases v with
      | blob size data =>
        exact ⟨fun _ => .inr (.inl fun _ h => by cases h), fun _ => hnull _ fun g => writeRawImage_eq d g name _ _⟩
      | string partition =>
        by_cases hpart : partition = []
        · refine ⟨fun _ => .inr (.inl fun p h => ?_), fun _ => hnull _ fun g => ?_⟩
          · cases h
            exact hpart
          · rw [writeRawImage_eq]
            simp [hpart]
        cases c with
        | blob size data =>
          refine ⟨fun h => ?_, fun h => ?_⟩
          · obtain ⟨r, after, hr, -⟩ := h fun _ => default
            rw [writeRawImage_eq] at hr
            simp [hpart, filenameOf] at hr
          · rcases h with h | h | ⟨filename, p, h, -⟩
            · cases h
            · exact absurd (h partition rfl) hpart
            · cases h
        | string filename =>
          by_cases hfile : filename = []
          · refine ⟨fun _ => .inr (.inr ⟨filename, partition, rfl, rfl, .inl hfile⟩), fun _ => hnull _ fun g => ?_⟩
            rw [writeRawImage_eq]
            simp [hfile]
          have hrun : WritesTruly d name (some (.string filename)) (some (.string partition)) ↔
              RestoresTruly d partition filename := by
            unfold WritesTruly RestoresTruly
            refine forall_congr' fun g => ?_
            rw [writeRawImage_eq]
            simp only [hpart, Edify.Value.string.injEq, hfile, or_self, ↓reduceIte, filenameOf, Option.bind_some]
            cases restoreRawPartition d g none partition filename with
            | none => simp
            | some r =>
              obtain ⟨ret, after⟩ := r
              simp only [Option.map_some, Option.some.injEq, Prod.mk.injEq, Holds]
              by_cases hret : ret = 0
              · simp [hret]
              · simp [hret, hpart]
          rw [hrun, restoresTruly_iff]
          constructor
          · intro h
            exact .inr (.inr ⟨filename, partition, rfl, rfl, .inr h⟩)
          · rintro (h | h | ⟨f, p, hf, hp, h | h⟩)
            · cases h
            · exact absurd (h partition rfl) hpart
            · cases hf
              exact absurd h hfile
            · cases hf
              cases hp
              exact h

/-! ## flashutils/flash_image.c -/

/-- `main`: the exit status, and what is on the partition. -/
def flashImageMain (argv : List Bytes) : Option (Int × After) :=
  match argv with
  | [_, partition, filename] => restoreRawPartition d g none partition filename
  | _ => some (2, .untouched)

/-- The choice of the back end, for the functions that are given a type and those that pass `NULL`; and what
`flash_image` and `write_raw_image` report. -/
theorem raw_image_iff (device : FlashType) (partition : Bytes) :
    (∀ partitionType : Option Bytes,
      rawPartition device partitionType partition = some (meant device partitionType partition) ↔
        match partitionType with
        | none => (pathType partition).isSome
        | some t => (named t).isSome ∨ pathType partition = none ∧ backEndOf device = none) ∧
    (anyPartition device partition = some (meant device none partition) ↔ (pathType partition).isSome) ∧
    (∀ (d : Device) (self filename : Bytes),
      (∀ g, ∃ r after, flashImageMain d g [self, partition, filename] = some (r, after) ∧
        (r = 0 → ∃ image, d.files filename = some image ∧ after.StartsWith image)) ↔
      (pathType partition).isSome ∧ ∀ image, d.files filename = some image → Told d partition image) ∧
    ∀ (d : Device) (name : Bytes) (contents partition_value : Option Edify.Value),
      WritesTruly d name contents partition_value ↔
        contents = none ∨ (∀ partition, partition_value = some (.string partition) → partition = []) ∨
        ∃ filename partition, contents = some (.string filename) ∧ partition_value = some (.string partition) ∧
          (filename = [] ∨ (pathType partition).isSome ∧
            ∀ image, d.files filename = some image → Told d partition image) :=
  ⟨fun partitionType => chooses_iff device partitionType partition, chooses_iff device none partition,
    fun d _ filename => restoresTruly_iff d partition filename, writeRawImage_iff⟩

/-- An MTD device with one file and no partitions that matter. -/
def mtdDevice : Device where
  probes := { boardBmlBoot := false, emmc := false, mtd := true }
  the_flash_type := .unknown
  files := fun name => if name = Bytes.ascii "/tmp/boot.img" then some [1] else none
  mtd := fun _ => none
  mmc := fun _ => none
  copying := fun _ => { opened := true, seekable := true, reads := fun _ => BUFSIZ, writes := fun _ => .upTo BUFSIZ }
  boardBmlBoot := { opened := false, unlocked := false, reads := fun _ => .upTo 4096, writes := fun _ => .upTo 4096 }
  bml := fun _ => { opened := false, unlocked := false, reads := fun _ => .upTo 4096, writes := fun _ => .upTo 4096 }

/-- The name `boot` without a type dereferences `NULL`; the type `yaffs2` hides the path; a blob is used for a file
name. -/
theorem raw_image_failing :
    rawPartition (deviceFlashType mtdDevice.probes mtdDevice.the_flash_type) none (Bytes.ascii "boot") ≠
      some (meant (deviceFlashType mtdDevice.probes mtdDevice.the_flash_type) none (Bytes.ascii "boot")) ∧
    rawPartition .mtd (some (Bytes.ascii "yaffs2")) (Bytes.ascii "/dev/block/mtdblock4") ≠
      some (meant .mtd (some (Bytes.ascii "yaffs2")) (Bytes.ascii "/dev/block/mtdblock4")) ∧
    ¬ WritesTruly mtdDevice (Bytes.ascii "write_raw_image") (some (.string (Bytes.ascii "/tmp/boot.img")))
      (some (.string (Bytes.ascii "boot"))) ∧
    ¬ WritesTruly mtdDevice (Bytes.ascii "write_raw_image") (some (.blob 1 [1]))
      (some (.string (Bytes.ascii "/dev/block/mtdblock4"))) := by
  refine ⟨by decide, by decide, fun h => ?_, fun h => ?_⟩
  · obtain ⟨r, after, hr, -⟩ := h fun _ => default
    have hnull : restoreRawPartition mtdDevice (fun _ => default) none (Bytes.ascii "boot")
        (Bytes.ascii "/tmp/boot.img") = none := rfl
    rw [writeRawImage_eq] at hr
    simp only [filenameOf, Option.bind_some, hnull, Option.map_none] at hr
    rw [if_neg (by decide)] at hr
    cases hr
  · obtain ⟨r, after, hr, -⟩ := h fun _ => default
    rw [writeRawImage_eq] at hr
    simp only [filenameOf, Option.bind_none] at hr
    rw [if_neg (by decide)] at hr
    cases hr

end Flash

end Miui
