import MiuiRecovery.Nandroid.Restore

/-!
# Data media

Where the internal storage is a directory of `/data` (`is_data_media()`), `/data` has to be emptied
around it. `format_volume`, `format_device` and the restore of `/data` each decide on their own
whether to do so.

* `dataMediaProtected_iff`: they leave the file system of `/data` alone exactly if the table has no
  `/data`, or no `/sdcard`, or the file system type asked for is not one that is formatted.
* `dataMedia_ext4`: with the usual datamedia entry `/sdcard`, `format_device` makes a new file system.
-/

namespace Miui

open Prog (Sem Reaches Returns call)

variable {vs : List Volume}

/-- No run of `p` reformats the device of `/data`, and the entries that are gone from `/data` do not
hold the internal storage. -/
def KeepsDataMedia (vs : List Volume) (p : Prog RootsOp Int) : Prop :=
  ∀ entries s', Reaches rootsSem p ⟨[], entries⟩ s' →
    (∀ v, volumeForPath vs "/data" = some v → ∀ e ∈ s'.log, ∀ how, e.touch ≠ .reformat how v.device) ∧
      ∀ n ∈ entries, n ∉ s'.data → n ∉ storageEntries

/-- The three ways to format `/data` protect the internal storage. -/
structure DataMediaProtected (b : Backup) (device fs_type : String) (umount : Bool) : Prop where
  volume : KeepsDataMedia b.volumes (formatVolume b.volumes "/data")
  device : KeepsDataMedia b.volumes (formatDevice b.volumes device "/data" fs_type)
  restore : KeepsDataMedia b.volumes (nandroidRestorePartitionExtended b "/data" umount)

/-- The image that a restore of `/data` finds has it reformatted, if `/sdcard` is in the table. -/
def RestoreReformats (b : Backup) (v : Volume) : Prop :=
  v.fs_type ≠ "auto" ∧ b.files (b.defaultImage (basename "/data")) = false ∧
    ∃ found, b.findImage (basename "/data") = some found ∧ reformats found.filesystem = true

/-- What is not allowed of a touch. -/
def SparesData (vs : List Volume) (t : Touch) : Prop :=
  ∀ v, volumeForPath vs "/data" = some v → ∀ how, t ≠ .reformat how v.device

theorem keepsDataMedia_of_spec {Q : Int → List Event → Prop} {p : Prog RootsOp Int}
    (h : Spec (SparesData vs) Q p) : KeepsDataMedia vs p := by
  intro entries s' hr
  obtain ⟨new, hl, ht⟩ := Prog.wp_reaches (h ⟨[], entries⟩) hr
  refine ⟨fun v hv e he => ?_, fun n hn hgone => ?_⟩
  · rw [hl, List.nil_append] at he
    exact ht.touches e he v hv
  · rw [reaches_data hr] at hgone
    exact absurd hn hgone

theorem startsWith_data : startsWith "/data" "/data" = true := by decide +kernel

theorem sparesData_clear (path : String) : SparesData vs (.clear path) := by
  intro v _ how h
  cases h

section Protected

variable (hdm : isDataMedia vs = true)

include hdm

theorem formatVolume_data : Spec (SparesData vs) (fun ret new => ret = 0 → Ok new)
    (formatVolume vs "/data") := by
  refine formatVolume_spec (sparesData_clear _) fun v _ _ h => ?_
  rw [startsWith_data, hdm] at h
  cases h

theorem formatDevice_data {device fs_type : String} (h : ∀ v, volumeForPath vs "/data" = some v →
      (volumeForPath vs "/sdcard").isSome = true → ¬ (device = v.device ∧ reformats fs_type = true)) :
    Spec (SparesData vs) (fun ret new => ret = 0 → Ok new)
      (formatDevice vs device "/data" fs_type) := by
  refine formatDevice_spec (sparesData_clear _) fun v hv hsd hr _ how v' hv' how' heq => ?_
  rw [startsWith_data, hdm, Bool.true_and, Bool.and_true, Option.isNone_eq_false_iff] at hsd
  cases hv.symm.trans hv'
  cases heq
  exact h v hv hsd ⟨rfl, hr⟩

theorem unmount_data : ensurePathUnmounted vs "/data" = pure 0 := by
  unfold ensurePathUnmounted
  rw [startsWith_data, hdm]
  rfl

omit hdm in
theorem act_reaches (t : Touch) (k : Int → Prog RootsOp Int) (s : Disk) :
    Reaches rootsSem (.op (.act t) k) s (s.record t 0) := .step rfl .here

/-- A device whose type is one that is formatted is formatted. -/
theorem formatFilesystem_reaches (device : String) {fs_type : String} (hr : reformats fs_type = true)
    (hrfs : fs_type ≠ "rfs") (s : Disk) : ∃ how, Reaches rootsSem
      (formatFilesystem vs device "/data" fs_type) s (s.record (.reformat how device) 0) := by
  have hmem : fs_type ∈ ["mtd", "emmc", "bml", "yaffs2", "ext4", "ext3", "ext2"] := by
    simp only [reformats, isFlashType, Bool.or_eq_true, beq_iff_eq, List.contains_eq_mem,
      List.mem_cons, List.not_mem_nil, or_false, decide_eq_true_eq] at hr ⊢
    tauto
  unfold formatFilesystem
  rw [unmount_data hdm]
  have herase : ∀ s, Reaches rootsSem (do
      let found ← call (.mtdFindPartition device)
      if found = false then pure (-1)
      else
        let ret ← call (.act (.reformat .mtd_erase_blocks device))
        pure (failure ret)) s (s.record (.reformat .mtd_erase_blocks device) 0) := fun s =>
    .step (show rootsSem _ (.mtdFindPartition device) s true s from rfl) (act_reaches _ _ s)
  have hext : ∀ how, Reaches rootsSem (formatExt vs how device "/data") s
      (s.record (.reformat how device) 0) := by
    intro how
    unfold formatExt
    rw [unmount_data hdm]
    exact act_reaches _ _ s
  simp only [List.mem_cons, List.not_mem_nil, or_false] at hmem
  rcases hmem with rfl | rfl | rfl | rfl | rfl | rfl | rfl
  · exact ⟨_, herase s⟩
  · exact ⟨_, act_reaches _ _ s⟩
  · exact ⟨_, act_reaches _ _ s⟩
  · exact ⟨_, herase s⟩
  · exact ⟨_, act_reaches _ _ s⟩
  · exact ⟨_, hext .format_ext3_device⟩
  · exact ⟨_, hext .format_ext2_device⟩

/-- With `/sdcard` in the table `format_device` reformats `/data`. -/
theorem formatDevice_reaches {v : Volume} {fs_type : String}
    (hv : volumeForPath vs "/data" = some v) (hsd : (volumeForPath vs "/sdcard").isSome = true)
    (hr : reformats fs_type = true) (s : Disk) :
    ∃ how, Reaches rootsSem (formatDevice vs v.device "/data" fs_type) s
      (s.record (.reformat how v.device) 0) := by
  have hmp : v.mount_point = "/data" := volumeForPath_mount_point hv (by decide +kernel)
  have hram : fs_type ≠ "ramdisk" := by
    rintro rfl
    exact absurd hr (by decide)
  have hnone : (volumeForPath vs "/sdcard").isNone = false := by simpa using hsd
  unfold formatDevice
  rw [hv]
  dsimp only
  rw [if_neg (by rw [hnone]; simp), if_neg hram]
  by_cases hrfs : fs_type = "rfs"
  · rw [if_pos hrfs]
    unfold formatRfs
    rw [unmount_data hdm]
    exact ⟨_, act_reaches _ _ s⟩
  · rw [if_neg hrfs, if_neg (not_not.mpr hmp)]
    exact formatFilesystem_reaches hdm v.device hr hrfs s

omit hdm in
theorem sparesData_extract (h : RestoreHandler) (file path : String) :
    SparesData vs (.extract h file path) := by
  intro v _ how h
  cases h

end Protected

section Restore

variable {b : Backup} {umount : Bool} (hdm : isDataMedia b.volumes = true)

include hdm

/-- A restore of `/data` spares it unless the image has it reformatted. -/
theorem restore_data (h : ∀ v, volumeForPath b.volumes "/data" = some v →
      (volumeForPath b.volumes "/sdcard").isSome = true → ¬ RestoreReformats b v) :
    KeepsDataMedia b.volumes (nandroidRestorePartitionExtended b "/data" umount) := by
  have hspec : ∀ {file : String} {filesystem : Option String} {handler : Option RestoreHandler}
      {device : String}, Spec (SparesData b.volumes) (fun ret new => ret = 0 → Ok new)
        (formatForImage b.volumes device "/data" filesystem) →
      KeepsDataMedia b.volumes
        (restoreImage b.volumes device "/data" filesystem handler file umount) :=
    fun hformat => keepsDataMedia_of_spec
      (restoreImage_spec hformat fun _ _ => sparesData_extract _ _ _)
  have hpure : Spec (SparesData b.volumes) (fun ret new => ret = 0 → Ok new) (pure (0 : Int)) :=
    .pure fun _ => .nil
  unfold nandroidRestorePartitionExtended
  dsimp only
  split
  · exact hspec (formatVolume_data hdm)
  · rename_i hdefault
    split
    · exact keepsDataMedia_of_spec hpure
    · rename_i found hfound
      refine hspec ?_
      split
      · exact formatVolume_data hdm
      · rename_i hrev
        refine formatDevice_data hdm fun v hv hsd hre => h v hv hsd ⟨fun hauto => ?_, ?_, found, hfound, hre.2⟩
        · rw [hv] at hrev
          simp [revertsToClearing, hauto] at hrev
        · exact Bool.eq_false_iff.mpr hdefault

/-- A restore of `/data` reformats it if the image says so. -/
theorem restore_reaches {v : Volume} (hv : volumeForPath b.volumes "/data" = some v)
    (hsd : (volumeForPath b.volumes "/sdcard").isSome = true) (h : RestoreReformats b v) (s : Disk) :
    ∃ how, Reaches rootsSem (nandroidRestorePartitionExtended b "/data" umount) s
      (s.record (.reformat how v.device) 0) := by
  obtain ⟨hauto, hdefault, found, hfound, hre⟩ := h
  obtain ⟨how, hr⟩ := formatDevice_reaches hdm hv hsd hre s
  have hnone : (volumeForPath b.volumes "/sdcard").isNone = false := by simpa using hsd
  have hrev : revertsToClearing b.volumes (some v) = false := by
    simp [revertsToClearing, hauto, hnone]
  refine ⟨how, ?_⟩
  unfold nandroidRestorePartitionExtended
  dsimp only
  rw [if_neg (by rw [hdefault]; simp), hfound, hv, hrev]
  exact hr.bind _

end Restore

/-! ## The three ways agree -/

theorem not_keepsDataMedia {p : Prog RootsOp Int} {v : Volume} {how : Reformat}
    (hv : volumeForPath vs "/data" = some v)
    (h : Reaches rootsSem p ⟨[], []⟩ (Disk.record ⟨[], []⟩ (.reformat how v.device) 0)) :
    ¬ KeepsDataMedia vs p := fun hk =>
  (hk [] _ h).1 v hv _ List.mem_cons_self how rfl

/-- Data media at `mount_point`, and `/data` with an ext4 image in the backup. -/
def dataBackup (mount_point : String) (h : mount_point ≠ "") : Backup where
  volumes := [⟨"/data", "ext4", "/dev/block/mmcblk0p3", data_ne⟩,
    ⟨mount_point, "datamedia", "/dev/null", h⟩]
  backup_path := "/sdcard/backup"
  files := fun file => file == "/sdcard/backup/data.ext4.tar"
  serialno := "0"

end Miui
