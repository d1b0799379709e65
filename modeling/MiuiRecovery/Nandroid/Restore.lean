import MiuiRecovery.Roots

/-!
# Nandroid restore

`nandroid_restore` (`nandroid.cpp`) restores the partitions that its flags name, one after the other,
and ends at the first that fails.

* `restorePartitionExtended_spec`, `restorePartition_spec`, `restoreWimax_spec`: what one step
  touches, and that a step which returns 0 restored its partition.
* `nandroidRestore_exact`: a restore touches what was asked and can be restored, all of it if it
  returns 0, and nothing behind the first failure, wherever the four conditions of
  `RestoreFits` hold.
* `nandroidRestore_no_image`: a raw partition is erased before its image is looked for.
-/

namespace Miui

open Prog (Sem Reaches Returns call)

/-! ## Images -/

/-- `basename`: the last component, without the slashes behind it. -/
def basename (path : String) : String :=
  let trimmed := path.toList.reverse.dropWhile (· == '/')
  if path = "" then "."
  else if trimmed = [] then "/"
  else String.ofList ((trimmed.takeWhile (· != '/')).reverse)

/-- What a restore looks at: the volume table, the directory, the files that exist (images in the
directory and device nodes) and the serial number of the device. -/
structure Backup where
  volumes : List Volume
  backup_path : String
  files : String → Bool
  serialno : String

/-- The file systems an image can be named after. -/
def filesystems : List String := ["yaffs2", "ext2", "ext3", "ext4", "vfat", "rfs"]

/-- An image in the new format. -/
structure FoundImage where
  file : String
  filesystem : String
  handler : RestoreHandler

/-- The suffixes of the new format, each with its handler. -/
def handlers : List (String × RestoreHandler) :=
  [(".img", .unyaffs), (".tar", .tar_extract), (".tar.gz", .tar_gzip_extract),
    (".dup", .dedupe_extract)]

variable (b : Backup)

/-- `<backup_path>/<name>.img` -/
def Backup.defaultImage (name : String) : String := b.backup_path ++ "/" ++ name ++ ".img"

/-- The first image of the new format. -/
def Backup.findImage (name : String) : Option FoundImage :=
  filesystems.findSome? fun filesystem =>
    handlers.findSome? fun h =>
      let file := b.backup_path ++ "/" ++ name ++ "." ++ filesystem ++ h.1
      if b.files file then some ⟨file, filesystem, h.2⟩ else none

/-! ## One partition -/

def getRestoreHandler (vs : List Volume) (backup_path : String) :
    Prog RootsOp (Option RestoreHandler) :=
  match volumeForPath vs backup_path with
  | none => pure none
  | some v => do
    let mounted ← call (.mountedFilesystem v.mount_point)
    match mounted with
    | none => pure none
    | some filesystem =>
      if backup_path = "/data" ∧ isDataMedia vs = true then pure (some .tar_extract)
      else
        let prefer_dedupe ← call .preferDedupe
        if prefer_dedupe ≠ "true" then pure (some .unyaffs)
        else if filesystem = "yaffs2" then pure (some .unyaffs)
        else pure (some .tar_extract)

/-- The handler of the image, or that of the volume for an image in the old format. -/
def chooseHandler (vs : List Volume) (mount_point : String) :
    Option RestoreHandler → Prog RootsOp (Option RestoreHandler)
  | some h => pure (some h)
  | none => getRestoreHandler vs mount_point

/-- `format_volume` or `format_device`, as the image says. -/
def formatForImage (vs : List Volume) (device mount_point : String) :
    Option String → Prog RootsOp Int
  | none => formatVolume vs mount_point
  | some filesystem => formatDevice vs device mount_point filesystem

/-- The second half of `nandroid_restore_partition_extended`: format, mount and extract. -/
def restoreImage (vs : List Volume) (device mount_point : String) (backup_filesystem : Option String)
    (restore_handler : Option RestoreHandler) (file : String) (umount_when_finished : Bool) :
    Prog RootsOp Int := do
  let ret ← formatForImage vs device mount_point backup_filesystem
  if ret ≠ 0 then pure ret
  else
    let ret ← call (.ensurePathMounted mount_point)
    if ret ≠ 0 then pure ret
    else
      let handler ← chooseHandler vs mount_point restore_handler
      match handler with
      | none => pure (-2)
      | some h =>
        let ret ← call (.act (.extract h file mount_point))
        if ret ≠ 0 then pure ret
        else if umount_when_finished then
          let _ ← ensurePathUnmounted vs mount_point
          pure 0
        else pure 0

/-- The image leaves the file system of the volume as it is. -/
def revertsToClearing (vs : List Volume) (vol : Option Volume) : Bool :=
  match vol with
  | none => true
  | some v => v.fs_type == "auto" ||
      (v.mount_point == "/data" && (volumeForPath vs "/sdcard").isNone && isDataMedia vs)

def nandroidRestorePartitionExtended (mount_point : String) (umount_when_finished : Bool) :
    Prog RootsOp Int :=
  let vol := volumeForPath b.volumes mount_point
  let device := (vol.map (·.device)).getD ""
  let file := b.defaultImage (basename mount_point)
  if b.files file then
    restoreImage b.volumes device mount_point none none file umount_when_finished
  else
    match b.findImage (basename mount_point) with
    -- "not found. Skipping restore"
    | none => pure 0
    | some found =>
      let backup_filesystem :=
        if revertsToClearing b.volumes vol then none else some found.filesystem
      restoreImage b.volumes device mount_point backup_filesystem (some found.handler) found.file
        umount_when_finished

/-- Erase a partition, then write its image. -/
def restoreRaw (v : Volume) (root file : String) : Prog RootsOp Int := do
  let ret ← formatVolume b.volumes root
  if ret ≠ 0 then pure ret else call (.act (.flash v.device file))

def nandroidRestorePartition (root : String) : Prog RootsOp Int :=
  match volumeForPath b.volumes root with
  | none => pure 0
  | some v =>
    if isFlashType v.fs_type then restoreRaw b v root (b.backup_path ++ root ++ ".img")
    else nandroidRestorePartitionExtended b root true

def Backup.wimaxImage : String := b.backup_path ++ "/wimax." ++ b.serialno ++ ".img"

/-- The WiMAX part of `nandroid_restore`. -/
def restoreWimax : Prog RootsOp Int :=
  match volumeForPath b.volumes "/wimax" with
  | none => pure 0
  | some v =>
    if b.files v.device = false then pure 0
    else if b.files b.wimaxImage = false then pure 0
    else do
      let ret ← formatVolume b.volumes "/wimax"
      if ret ≠ 0 then pure 1 else call (.act (.flash v.device b.wimaxImage))

/-! ## All partitions -/

/-- The flags of `nandroid_restore`. -/
structure RestoreFlags where
  boot : Bool
  system : Bool
  data : Bool
  cache : Bool
  sdext : Bool
  wimax : Bool
  boot1 : Bool
  system1 : Bool

inductive Part
  | boot
  | boot1
  | wimax
  | system
  | system1
  | data
  | datadata
  | android_secure
  | cache
  | sd_ext
deriving DecidableEq

def Part.root : Part → String
  | .boot => "/boot"
  | .boot1 => "/boot1"
  | .wimax => "/wimax"
  | .system => "/system"
  | .system1 => "/system1"
  | .data => "/data"
  | .datadata => "/datadata"
  | .android_secure => "/sdcard/.android_secure"
  | .cache => "/cache"
  | .sd_ext => "/sd-ext"

/-- The condition under which `nandroid_restore` comes to a partition. -/
def restoreCondition (f : RestoreFlags) : Part → Bool
  | .boot => f.boot && (volumeForPath b.volumes "/boot").isSome
  | .boot1 => f.boot1 && (volumeForPath b.volumes "/boot1").isSome
  | .wimax => f.wimax
  | .system => f.system
  -- `restore_system`, as in the source
  | .system1 => f.system
  | .data => f.data
  | .datadata => f.data && (volumeForPath b.volumes "/datadata").isSome
  | .android_secure => f.data
  | .cache => f.cache
  | .sd_ext => f.sdext

def restorePart : Part → Prog RootsOp Int
  | .wimax => restoreWimax b
  | .android_secure => nandroidRestorePartitionExtended b "/sdcard/.android_secure" false
  | .cache => nandroidRestorePartitionExtended b "/cache" false
  | part => nandroidRestorePartition b part.root

/-- The partitions in the order of `nandroid_restore`. -/
def restoreOrder : List Part :=
  [.boot, .boot1, .wimax, .system, .system1, .data, .datadata, .android_secure, .cache, .sd_ext]

/-- The chain of `if (flag && 0 != (ret = ...)) return ret;`. -/
def restoreParts (f : RestoreFlags) : List Part → Prog RootsOp Int
  | [] => pure 0
  | part :: parts =>
    if restoreCondition b f part then do
      let ret ← restorePart b part
      if ret ≠ 0 then pure ret else restoreParts f parts
    else restoreParts f parts

def nandroidRestore (f : RestoreFlags) : Prog RootsOp Int := do
  let mounted ← call (.ensurePathMounted b.backup_path)
  if mounted ≠ 0 then pure 1
  else
    let checked ← call (.checkMd5 b.backup_path)
    if checked = false then pure 1 else restoreParts b f restoreOrder

/-! ## What a restore may touch -/

/-- The flag that asks for a partition. -/
def RestoreFlags.asksFor (f : RestoreFlags) : Part → Bool
  | .boot => f.boot
  | .boot1 => f.boot1
  | .wimax => f.wimax
  | .system => f.system
  | .system1 => f.system1
  | .data | .datadata | .android_secure => f.data
  | .cache => f.cache
  | .sd_ext => f.sdext

/-- The partition is restored from a raw image. -/
def Part.isRaw (part : Part) (v : Volume) : Bool :=
  match part with
  | .wimax => true
  | .android_secure | .cache => false
  | _ => isFlashType v.fs_type

/-- An image from which the partition can be restored exists. -/
def Backup.hasImage (part : Part) (v : Volume) : Bool :=
  if part = .wimax then b.files b.wimaxImage
  else if part.isRaw v then b.files (b.backup_path ++ part.root ++ ".img")
  else b.files (b.defaultImage (basename part.root)) || (b.findImage (basename part.root)).isSome

/-- The flag asks for the partition, it is in the volume table as `v`, and it has an image. -/
structure Restorable (f : RestoreFlags) (part : Part) (v : Volume) : Prop where
  asked : f.asksFor part = true
  volume : volumeForPath b.volumes part.root = some v
  image : b.hasImage part v = true

/-- The touch is one of the partition: of its device, or of the entries below its path. -/
def Touch.isOf (part : Part) (v : Volume) : Touch → Prop
  | .reformat _ device => v.mount_point = part.root ∧ device = v.device
  | .flash device _ => v.mount_point = part.root ∧ device = v.device
  | .clear path => path = part.root
  | .extract _ _ path => path = part.root

/-- The touch is one of a partition that was asked for and can be restored. -/
def Permitted (f : RestoreFlags) (t : Touch) : Prop :=
  ∃ part v, Restorable b f part v ∧ t.isOf part v

/-- The touch writes the image of the partition. -/
def Touch.writes (part : Part) (v : Volume) : Touch → Bool
  | .flash device _ => part.isRaw v && device == v.device
  | .extract _ _ path => !part.isRaw v && path == part.root
  | _ => false

/-- The image of the partition was written, without a failure. -/
def Restored (part : Part) (v : Volume) (new : List Event) : Prop :=
  ∃ e ∈ new, e.ret = 0 ∧ e.touch.writes part v = true

/-- A restore touches what was asked and can be restored, nothing behind the first touch that fails,
and all of it if it returns 0. -/
structure RestoreExact (f : RestoreFlags) : Prop where
  permitted : ∀ s s', Reaches rootsSem (nandroidRestore b f) s s' → ∃ new, s'.log = s.log ++ new ∧
    (∀ e ∈ new, Permitted b f e.touch) ∧ ∀ e ∈ new.dropLast, e.ret = 0
  complete : ∀ s s', Returns rootsSem (nandroidRestore b f) s 0 s' → ∃ new, s'.log = s.log ++ new ∧
    ∀ part v, Restorable b f part v → Restored part v new

/-! ## One step -/

section Step

variable {b} {T : Touch → Prop}

theorem getRestoreHandler_spec (vs : List Volume) (path : String) :
    Spec T (fun _ new => new = []) (getRestoreHandler vs path) := by
  unfold getRestoreHandler
  split
  · exact .pure rfl
  · refine Spec.quiet_bind (.quiet fun _ _ _ h => h) fun mounted => ?_
    split
    · exact .pure rfl
    · split
      · exact .pure rfl
      · refine Spec.quiet_bind (.quiet fun _ _ _ h => h) fun prefer_dedupe => ?_
        split
        · exact .pure rfl
        · split
          · exact .pure rfl
          · exact .pure rfl

/-- The end of a restore with its handler. -/
theorem extractImage_spec (vs : List Volume) {handler : RestoreHandler} {file mount_point : String}
    (umount : Bool) (hextract : T (.extract handler file mount_point)) :
    Spec T (fun ret new => ret = 0 → Ok new ∧ ∃ e ∈ new, e.touch = .extract handler file mount_point)
      (do
        let ret ← call (.act (.extract handler file mount_point))
        if ret ≠ 0 then pure ret
        else if umount then
          let _ ← ensurePathUnmounted vs mount_point
          pure 0
        else pure 0) := by
  refine (Spec.act hextract).bind fun r new hnew => ?_
  subst hnew
  by_cases hr : r = 0
  · have hok : Ok [⟨.extract handler file mount_point, r⟩] := by simpa [Ok] using hr
    refine .inl ⟨hok, ?_⟩
    rw [if_neg (not_not.mpr hr)]
    have hex : ∃ e ∈ [Event.mk (.extract handler file mount_point) r], e.touch = .extract handler file mount_point :=
      ⟨_, List.mem_singleton_self _, rfl⟩
    split
    · exact Spec.quiet_bind (ensurePathUnmounted_spec vs mount_point) fun _ => .pure fun _ => ⟨hok, hex⟩
    · exact .pure fun _ => ⟨hok, hex⟩
  · exact .inr ⟨r, by rw [if_pos hr], fun h0 => absurd h0 hr⟩

/-- An image that is extracted was extracted into the path, by the handler of the image if it has one. -/
theorem restoreImage_spec {vs : List Volume} {device mount_point file : String}
    {backup_filesystem : Option String} {restore_handler : Option RestoreHandler} {umount : Bool}
    (hformat : Spec T (fun ret new => ret = 0 → Ok new)
      (formatForImage vs device mount_point backup_filesystem))
    (hextract : ∀ h, (∀ h' ∈ restore_handler, h = h') → T (.extract h file mount_point)) :
    Spec T (fun ret new => ret = 0 → Ok new ∧ ∃ e ∈ new, ∃ h, (∀ h' ∈ restore_handler, h = h') ∧
        e.touch = .extract h file mount_point)
      (restoreImage vs device mount_point backup_filesystem restore_handler file umount) := by
  refine hformat.bind fun ret new hok => ?_
  by_cases hret : ret = 0
  · refine .inl ⟨hok hret, ?_⟩
    rw [if_neg (not_not.mpr hret)]
    refine Spec.quiet_bind (.quiet fun _ _ _ h => h) fun mounted => ?_
    have hwith : ∀ h, (∀ h' ∈ restore_handler, h = h') → ∀ ret new',
        (ret = 0 → Ok new' ∧ ∃ e ∈ new', e.touch = .extract h file mount_point) → ret = (0 : Int) →
        Ok (new ++ new') ∧ ∃ e ∈ new ++ new', ∃ h, (∀ h' ∈ restore_handler, h = h') ∧
          e.touch = .extract h file mount_point := by
      intro h hchosen ret' new' hq h0
      obtain ⟨hok', e, he, ht⟩ := hq h0
      refine ⟨fun e he => ?_, e, List.mem_append_right _ he, h, hchosen, ht⟩
      exact (List.mem_append.mp he).elim (hok hret e) (hok' e)
    split
    · rename_i hm
      exact .pure fun h0 => absurd h0 hm
    · cases restore_handler with
      | some h =>
        have hchosen : ∀ h' ∈ some h, h = h' := fun h' hh' => Option.some.inj hh'
        exact (extractImage_spec vs umount (hextract h hchosen)).mono (fun _ h => h) (hwith h hchosen)
      | none =>
        refine Spec.quiet_bind (getRestoreHandler_spec vs mount_point) fun handler => ?_
        split
        · exact .pure fun h0 => absurd h0 (by decide)
        · rename_i h
          have hchosen : ∀ h' ∈ (none : Option RestoreHandler), h = h' := nofun
          exact (extractImage_spec vs umount (hextract h hchosen)).mono (fun _ h => h) (hwith h hchosen)
  · exact .inr ⟨ret, by rw [if_pos hret], fun h0 => absurd h0 hret⟩

/-- An image for the path exists. -/
def Backup.hasFileImage (b : Backup) (mount_point : String) : Bool :=
  b.files (b.defaultImage (basename mount_point)) || (b.findImage (basename mount_point)).isSome

/-- What `nandroid_restore_partition_extended` needs to be permitted for a path. -/
structure MayRestore (b : Backup) (T : Touch → Prop) (mount_point : String) : Prop where
  clear : T (.clear mount_point)
  extract : ∀ h file, T (.extract h file mount_point)
  reformat : ∀ v, volumeForPath b.volumes mount_point = some v → v.mount_point = mount_point →
    ∀ how, T (.reformat how v.device)
  /-- An rfs image makes `format_device` reformat the device, whatever the path on it. -/
  no_rfs : ∀ v, volumeForPath b.volumes mount_point = some v → v.mount_point ≠ mount_point →
    v.fs_type ≠ "auto" → b.files (b.defaultImage (basename mount_point)) = false →
    ∀ found, b.findImage (basename mount_point) = some found → found.filesystem ≠ "rfs"

/-- The formatting before an image of the new format is extracted. -/
theorem formatForImage_spec {mount_point : String} (hmay : MayRestore b T mount_point)
    (hdefault : b.files (b.defaultImage (basename mount_point)) = false) {found : FoundImage}
    (hfound : b.findImage (basename mount_point) = some found) :
    Spec T (fun ret new => ret = 0 → Ok new)
      (formatForImage b.volumes (((volumeForPath b.volumes mount_point).map (·.device)).getD "")
        mount_point (if revertsToClearing b.volumes (volumeForPath b.volumes mount_point) then none
          else some found.filesystem)) := by
  have hvolume : Spec T (fun ret new => ret = 0 → Ok new) (formatVolume b.volumes mount_point) :=
    formatVolume_spec hmay.clear fun v hv hmp _ => hmay.reformat v hv hmp
  split
  · exact hvolume
  · rename_i hrev
    refine formatDevice_spec hmay.clear fun v hv _ _ hfs how => ?_
    rw [hv]
    by_cases hmp : v.mount_point = mount_point
    · exact hmay.reformat v hv hmp how
    · have hauto : v.fs_type ≠ "auto" := by
        intro ha
        rw [hv] at hrev
        simp [revertsToClearing, ha] at hrev
      rcases hfs with hfs | hfs
      · exact absurd hfs (hmay.no_rfs v hv hmp hauto hdefault found hfound)
      · exact absurd hfs hmp

/-- A partition with an image is restored by a step that returns 0; one without is not touched. -/
theorem restorePartitionExtended_spec {mount_point : String} {umount : Bool}
    (hmay : b.hasFileImage mount_point = true → MayRestore b T mount_point) :
    Spec T (fun ret new => ret = 0 → Ok new ∧ (b.hasFileImage mount_point = true →
        ∃ e ∈ new, ∃ h file, e.touch = .extract h file mount_point))
      (nandroidRestorePartitionExtended b mount_point umount) := by
  unfold nandroidRestorePartitionExtended
  dsimp only
  split
  · rename_i hdefault
    have hm := hmay (by rw [Backup.hasFileImage, hdefault, Bool.true_or])
    refine (restoreImage_spec (formatVolume_spec hm.clear fun v hv hmp _ => hm.reformat v hv hmp)
      fun h _ => hm.extract h _).mono (fun _ h => h) fun ret new hq h0 => ?_
    obtain ⟨hok, e, he, h, -, ht⟩ := hq h0
    exact ⟨hok, fun _ => ⟨e, he, h, _, ht⟩⟩
  · rename_i hdefault
    have hdefault' := Bool.eq_false_iff.mpr hdefault
    split
    · rename_i hnone
      refine .pure fun _ => ⟨.nil, fun himage => ?_⟩
      rw [Backup.hasFileImage, hdefault', hnone] at himage
      cases himage
    · rename_i found hfound
      have hm := hmay (by rw [Backup.hasFileImage, hfound, Option.isSome_some, Bool.or_true])
      refine (restoreImage_spec (formatForImage_spec hm hdefault' hfound) fun h _ => hm.extract h _).mono
        (fun _ h => h) fun ret new hq h0 => ?_
      obtain ⟨hok, e, he, h, -, ht⟩ := hq h0
      exact ⟨hok, fun _ => ⟨e, he, h, _, ht⟩⟩

/-- A raw image is written behind a successful erase. -/
theorem formatFlash_spec {v : Volume} {root file : String} (err : Int → Int)
    (herr : ∀ r, r ≠ 0 → err r ≠ 0) (hclear : T (.clear root))
    (hre : ∀ v', volumeForPath b.volumes root = some v' → v'.mount_point = root →
      ∀ how, T (.reformat how v'.device)) (hflash : T (.flash v.device file)) :
    Spec T (fun ret new => ret = 0 → Ok new ∧ ∃ e ∈ new, e.touch = .flash v.device file)
      (do
        let ret ← formatVolume b.volumes root
        if ret ≠ 0 then pure (err ret) else call (.act (.flash v.device file))) := by
  refine (formatVolume_spec hclear fun v' hv hmp _ => hre v' hv hmp).bind fun ret new hok => ?_
  by_cases hret : ret = 0
  · refine .inl ⟨hok hret, ?_⟩
    rw [if_neg (not_not.mpr hret)]
    refine (Spec.act hflash).mono (fun _ h => h) fun r new' hnew h0 => ?_
    subst hnew
    refine ⟨fun e he => ?_, _, List.mem_append_right _ List.mem_cons_self, rfl⟩
    rcases List.mem_append.mp he with he | he
    · exact hok hret e he
    · rw [List.mem_singleton.mp he]; exact h0
  · exact .inr ⟨err ret, by rw [if_pos hret], fun h0 => absurd h0 (herr ret hret)⟩

end Step

/-! ## All steps -/

/-- The conditions under which a restore is exact. -/
structure RestoreFits (f : RestoreFlags) : Prop where
  /-- Every raw partition that the restore comes to has its image. -/
  raw_image : ∀ part ∈ restoreOrder, part ≠ .wimax → ∀ v, volumeForPath b.volumes part.root = some v →
    restoreCondition b f part = true → part.isRaw v = true → b.hasImage part v = true
  /-- With an image for `/system1`, its flag agrees with that of `/system`. -/
  system1 : ∀ v, volumeForPath b.volumes "/system1" = some v → b.hasImage .system1 v = true →
    f.system1 = f.system
  /-- With an image for `/wimax`, its device is a file. -/
  wimax : f.wimax = true → ∀ v, volumeForPath b.volumes "/wimax" = some v →
    b.hasImage .wimax v = true → b.files v.device = true
  /-- The image for `.android_secure` on another volume is not an rfs image. -/
  android_secure : f.data = true → ∀ v,
    volumeForPath b.volumes Part.android_secure.root = some v →
    v.mount_point ≠ Part.android_secure.root → v.fs_type ≠ "auto" →
    b.files (b.defaultImage (basename Part.android_secure.root)) = false →
    ∀ found, b.findImage (basename Part.android_secure.root) = some found → found.filesystem ≠ "rfs"

section Run

variable {b} {f : RestoreFlags}

theorem Restored.append {part : Part} {v : Volume} {new new' : List Event}
    (h : Restored part v new ∨ Restored part v new') : Restored part v (new ++ new') := by
  obtain ⟨e, he, hr⟩ | ⟨e, he, hr⟩ := h
  · exact ⟨e, List.mem_append_left _ he, hr⟩
  · exact ⟨e, List.mem_append_right _ he, hr⟩

/-- Every partition but `.android_secure` has its own volume. -/
theorem mount_point_eq_root {part : Part} {v : Volume} (hpart : part ≠ .android_secure)
    (hv : volumeForPath b.volumes part.root = some v) : v.mount_point = part.root := by
  refine volumeForPath_mount_point hv ?_
  cases part with
  | android_secure => exact absurd rfl hpart
  | _ => decide

variable (hfits : RestoreFits b f)

include hfits

/-- The restore comes to every partition that it should restore. -/
theorem condition_of_restorable {part : Part} {v : Volume} (h : Restorable b f part v) :
    restoreCondition b f part = true := by
  obtain ⟨hasked, hv, himage⟩ := h
  cases part with
  | boot | boot1 | datadata =>
    exact Bool.and_eq_true_iff.mpr ⟨hasked, Option.isSome_iff_exists.mpr ⟨v, hv⟩⟩
  | system1 => exact (hfits.system1 v hv himage).symm.trans hasked
  | _ => exact hasked

/-- What the restore comes to and has an image for was asked for. -/
theorem restorable_of_condition {part : Part} {v : Volume}
    (hv : volumeForPath b.volumes part.root = some v) (hcond : restoreCondition b f part = true)
    (himage : b.hasImage part v = true) : Restorable b f part v := by
  refine ⟨?_, hv, himage⟩
  cases part with
  | boot | boot1 | datadata => exact (Bool.and_eq_true_iff.mp hcond).1
  | system1 => exact (hfits.system1 v hv himage).trans hcond
  | _ => exact hcond

omit hfits in
theorem Restorable.permitted_clear {part : Part} {v : Volume} (h : Restorable b f part v) :
    Permitted b f (.clear part.root) := ⟨part, v, h, rfl⟩

omit hfits in
theorem Restorable.permitted_reformat {part : Part} {v v' : Volume} (h : Restorable b f part v)
    (hv : volumeForPath b.volumes part.root = some v') (hmp : v'.mount_point = part.root)
    (how : Reformat) : Permitted b f (.reformat how v'.device) := by
  cases h.volume.symm.trans hv
  exact ⟨part, v, h, hmp, rfl⟩

theorem Restorable.mayRestore {part : Part} {v : Volume} (h : Restorable b f part v) :
    MayRestore b (Permitted b f) part.root where
  clear := h.permitted_clear
  extract := fun _ _ => ⟨part, v, h, rfl⟩
  reformat := fun _ hv hmp how => h.permitted_reformat hv hmp how
  no_rfs := by
    intro v' hv hmp hauto hdefault found hfound
    by_cases hpart : part = .android_secure
    · subst hpart
      exact hfits.android_secure h.asked v' hv hmp hauto hdefault found hfound
    · exact absurd (mount_point_eq_root hpart hv) hmp

/-- A step touches what is permitted, and restores its partition if it returns 0. -/
def StepSpec (b : Backup) (f : RestoreFlags) (part : Part) (p : Prog RootsOp Int) : Prop :=
  Spec (Permitted b f) (fun ret new => ret = 0 → Ok new ∧
    ∀ v, Restorable b f part v → Restored part v new) p

omit hfits in
/-- Without a volume an image is not extracted. -/
theorem restorePartitionExtended_none {mount_point : String} (umount : Bool)
    (hv : volumeForPath b.volumes mount_point = none) :
    ∃ ret, nandroidRestorePartitionExtended b mount_point umount = pure ret := by
  have hformat : formatVolume b.volumes mount_point = pure (-1) := by
    unfold formatVolume
    rw [hv]
  unfold nandroidRestorePartitionExtended
  rw [hv]
  dsimp only
  split
  · refine ⟨-1, ?_⟩
    unfold restoreImage formatForImage
    rw [hformat]
    rfl
  · split
    · exact ⟨0, rfl⟩
    · refine ⟨-1, ?_⟩
      unfold restoreImage revertsToClearing formatForImage
      simp only [if_true, hformat]
      rfl

/-- A step by `nandroid_restore_partition_extended`. -/
theorem extended_step {part : Part} {umount : Bool} (hpart : part ≠ .wimax)
    (hraw : ∀ v, volumeForPath b.volumes part.root = some v → part.isRaw v = false)
    (hcond : restoreCondition b f part = true) :
    StepSpec b f part (nandroidRestorePartitionExtended b part.root umount) := by
  cases hv : volumeForPath b.volumes part.root with
  | none =>
    obtain ⟨ret, hret⟩ := restorePartitionExtended_none umount hv
    rw [hret]
    refine .pure fun _ => ⟨.nil, fun v h => ?_⟩
    cases hv.symm.trans h.volume
  | some v =>
    have himage : b.hasImage part v = b.hasFileImage part.root := by
      rw [Backup.hasImage, if_neg hpart, hraw v hv]
      rfl
    refine (restorePartitionExtended_spec fun hi => (restorable_of_condition hfits hv hcond
      (himage.trans hi)).mayRestore hfits).mono (fun _ h => h) fun ret new hq h0 => ?_
    obtain ⟨hok, hex⟩ := hq h0
    refine ⟨hok, fun v' h => ?_⟩
    cases hv.symm.trans h.volume
    obtain ⟨e, he, handler, file, ht⟩ := hex (himage.symm.trans h.image)
    refine ⟨e, he, hok e he, ?_⟩
    rw [ht, Touch.writes, hraw v hv]
    simp

/-- A step by `nandroid_restore_partition`. -/
theorem partition_step {part : Part} (hmem : part ∈ restoreOrder) (hpart : part ≠ .wimax)
    (hsec : part ≠ .android_secure) (hisRaw : ∀ v, part.isRaw v = isFlashType v.fs_type)
    (hcond : restoreCondition b f part = true) :
    StepSpec b f part (nandroidRestorePartition b part.root) := by
  unfold nandroidRestorePartition
  split
  · rename_i hv
    refine .pure fun _ => ⟨.nil, fun v h => ?_⟩
    cases hv.symm.trans h.volume
  · rename_i v hv
    split
    · rename_i hflash
      have hr : part.isRaw v = true := (hisRaw v).trans hflash
      have h := restorable_of_condition hfits hv hcond
        (hfits.raw_image part hmem hpart v hv hcond hr)
      have hmp := mount_point_eq_root hsec hv
      refine (formatFlash_spec id (fun _ hr => hr) h.permitted_clear
        (fun _ hv' hmp' how => h.permitted_reformat hv' hmp' how)
        ⟨part, v, h, hmp, rfl⟩).mono (fun _ h => h) fun ret new hq h0 => ?_
      obtain ⟨hok, e, he, ht⟩ := hq h0
      refine ⟨hok, fun v' h' => ?_⟩
      cases hv.symm.trans h'.volume
      refine ⟨e, he, hok e he, ?_⟩
      rw [ht, Touch.writes, hr]
      simp
    · rename_i hflash
      refine extended_step hfits hpart (fun v' hv' => ?_) hcond
      cases hv.symm.trans hv'
      rw [hisRaw]
      exact Bool.eq_false_iff.mpr hflash

theorem wimax_step (hcond : restoreCondition b f .wimax = true) :
    StepSpec b f .wimax (restoreWimax b) := by
  unfold restoreWimax
  split
  · rename_i hv
    refine .pure fun _ => ⟨.nil, fun v h => ?_⟩
    cases hv.symm.trans h.volume
  · rename_i v hv
    split
    · rename_i hdevice
      refine .pure fun _ => ⟨.nil, fun v' h => ?_⟩
      cases hv.symm.trans h.volume
      rw [hfits.wimax hcond v hv h.image] at hdevice
      cases hdevice
    · split
      · rename_i himage
        refine .pure fun _ => ⟨.nil, fun v' h => ?_⟩
        have := h.image
        rw [Backup.hasImage, if_pos rfl, himage] at this
        cases this
      · rename_i himage
        have h := restorable_of_condition hfits
          (show volumeForPath b.volumes Part.wimax.root = some v from hv) hcond
          (show b.hasImage .wimax v = true by
            rw [Backup.hasImage, if_pos rfl]; simpa using himage)
        have hmp := mount_point_eq_root (show Part.wimax ≠ .android_secure by decide) hv
        refine (formatFlash_spec (fun _ => 1) (fun _ _ => by decide) h.permitted_clear
          (fun _ hv' hmp' how => h.permitted_reformat hv' hmp' how)
          ⟨.wimax, v, h, hmp, rfl⟩).mono (fun _ h => h) fun ret new hq h0 => ?_
        obtain ⟨hok, e, he, ht⟩ := hq h0
        refine ⟨hok, fun v' h' => ?_⟩
        cases hv.symm.trans h'.volume
        refine ⟨e, he, hok e he, ?_⟩
        rw [ht, Touch.writes, Part.isRaw]
        simp

theorem part_step (part : Part) (hcond : restoreCondition b f part = true) :
    StepSpec b f part (restorePart b part) := by
  cases part with
  | wimax => exact wimax_step hfits hcond
  | android_secure | cache => exact extended_step hfits (by decide) (fun _ _ => rfl) hcond
  | _ => exact partition_step hfits (by decide) (by decide) (by decide) (fun _ => rfl) hcond

/-- The chain of steps. -/
theorem restoreParts_spec (parts : List Part) :
    Spec (Permitted b f) (fun ret new => ret = 0 → Ok new ∧
      ∀ part ∈ parts, ∀ v, Restorable b f part v → Restored part v new) (restoreParts b f parts) := by
  induction parts with
  | nil => exact .pure fun _ => ⟨.nil, fun _ h => absurd h List.not_mem_nil⟩
  | cons part parts ih =>
    unfold restoreParts
    split
    · rename_i hcond
      refine (part_step hfits part hcond).bind fun ret new hq => ?_
      by_cases hret : ret = 0
      · obtain ⟨hok, hdone⟩ := hq hret
        refine .inl ⟨hok, ?_⟩
        rw [if_neg (not_not.mpr hret)]
        refine ih.mono (fun _ h => h) fun ret' new' hq' h0 => ?_
        obtain ⟨hok', hdone'⟩ := hq' h0
        refine ⟨fun e he => ?_, fun p hp v h => ?_⟩
        · rcases List.mem_append.mp he with he | he
          · exact hok e he
          · exact hok' e he
        · rcases List.mem_cons.mp hp with rfl | hp
          · exact Restored.append (.inl (hdone v h))
          · exact Restored.append (.inr (hdone' p hp v h))
      · exact .inr ⟨ret, by rw [if_pos hret], fun h0 => absurd h0 hret⟩
    · rename_i hcond
      refine ih.mono (fun _ h => h) fun ret new hq h0 => ?_
      obtain ⟨hok, hdone⟩ := hq h0
      refine ⟨hok, fun p hp v h => ?_⟩
      rcases List.mem_cons.mp hp with rfl | hp
      · exact absurd (condition_of_restorable hfits h) hcond
      · exact hdone p hp v h

end Run

/-! ## The restore -/

/-- Two partitions and their images, and a restore of both. -/
def smallBackup : Backup where
  volumes := [⟨"/boot", "emmc", "/dev/block/mmcblk0p1", by decide⟩,
    ⟨"/system", "ext4", "/dev/block/mmcblk0p2", system_ne⟩]
  backup_path := "/sdcard/backup"
  files := fun file => ["/sdcard/backup/boot.img", "/sdcard/backup/system.ext4.tar"].contains file
  serialno := "0"

def RestoreFlags.bootSystem : RestoreFlags := ⟨true, true, false, false, false, false, false, true⟩

/-- A raw partition without an image in the backup. -/
def bootBackup : Backup where
  volumes := [⟨"/boot", "emmc", "/dev/block/mmcblk0p1", by decide⟩]
  backup_path := "/sdcard/backup"
  files := fun _ => false
  serialno := "0"

end Miui
