import MiuiRecovery.Lib.CString
import MiuiRecovery.Nandroid.Restore
import MiuiRecovery.Nandroid.Tar

/-!
# Nandroid backup

`nandroid.cpp`: the handler that a backup of a partition gets, the name of its image, and the functions
that write it into the backup directory. The answers of the device during the backup of one partition are
a record (`Answers`); the backup directory is a map from names to contents.

* `Product`: what the backup of a partition leaves behind, and `product`, which one it is.
* `extended_ok`, `partition_ok`: a backup that returns 0 has written its product, and changed nothing but
  the files under that name and the digests.
* `blobDir_append`: a restore looks for the blobs where the backup put them.
-/

namespace Miui

open Directory

/-! ## Handlers -/

inductive BackupHandler
  | mkyaffs2image
  | tar_compress
  | tar_gzip_compress
  | dedupe_compress
deriving DecidableEq

/-- What the handler appends to the name that it is given. -/
def BackupHandler.suffix : BackupHandler → String
  | .mkyaffs2image => ".img"
  | .tar_compress => ".tar"
  | .tar_gzip_compress => ".tar.gz"
  | .dedupe_compress => ".dup"

/-- The handler that reads the format. -/
def BackupHandler.inverse : BackupHandler → RestoreHandler
  | .mkyaffs2image => .unyaffs
  | .tar_compress => .tar_extract
  | .tar_gzip_compress => .tar_gzip_extract
  | .dedupe_compress => .dedupe_extract

/-! ## The device -/

structure Phone where
  volumes : List Volume
  backup_path : String
  serialno : String
  /-- the files outside of the backup directory -/
  files : String → Bool

/-- What the commands of a handler do. -/
structure Output where
  popen : Bool
  /-- the bytes that reach `split`, those that the volume takes, and the status of the commands before it -/
  stream : Bytes
  room : Nat
  tar_status : Int
  pigz_status : Int
  /-- the status of `mkyaffs2image`, `dedupe` or `backup_raw_partition`, and the file that it leaves -/
  status : Int
  file : Option Bytes
  file_of_ok : status = 0 → file.isSome

/-- What computing and writing the digests meets. -/
structure DigestIo where
  /-- `fopen` of a file works -/
  opens : FileName → Bool
  /-- how much of a digest gets written; `none` if it cannot be opened -/
  room : FileName → Option Nat

/-- What the calls answer during the backup of a partition. -/
structure Answers where
  /-- `ensure_path_mounted(mount_point)` -/
  mount : Int
  /-- `/tmp/dircount` can be opened. -/
  dircount : Bool
  /-- the mounted volume, and its file system -/
  mounted : Option (Option String)
  forced_backup_format : Bytes
  /-- `NANDROID_BACKUP_FORMAT_FILE`, and what the buffer holds before it is read -/
  format_file : Option Bytes
  fmt : Bytes
  prefer_dedupe : String
  output : Output
  md5sum_enabled : Bool
  digests : DigestIo

/-- What ends a backup in the middle. -/
inductive Fault
  /-- a null pointer is dereferenced -/
  | crash
  /-- a buffer overflows, or a command is cut off at its end -/
  | overflow
  /-- a command in which a path is not one word, or not the same path behind `cd` -/
  | shell
deriving DecidableEq

/-! ## The handler of a partition -/

def handlerOfFormat (fmt : Bytes) : BackupHandler :=
  let fmt := CString.cstr (fmt.take 3)
  if fmt = Bytes.ascii "dup" then .dedupe_compress
  else if fmt = Bytes.ascii "tar" then .tar_compress
  else if fmt = Bytes.ascii "tgz" then .tar_gzip_compress
  else .tar_compress

/-- The handler that `refresh_default_backup_handler` sets. -/
def refreshDefaultBackupHandler (a : Answers) : BackupHandler :=
  if a.forced_backup_format ≠ [] then handlerOfFormat a.forced_backup_format
  else
    match a.format_file with
    | none => .tar_compress
    | some text => handlerOfFormat (text.take 5 ++ a.fmt.drop text.length)

def getBackupHandler (vs : List Volume) (a : Answers) (backup_path : String) :
    Except Fault (Option BackupHandler) :=
  match volumeForPath vs backup_path, a.mounted with
  | none, _ => .ok none
  | some _, none => .ok none
  | some _, some filesystem =>
    if backup_path = "/data" ∧ isDataMedia vs = true then .ok (some (refreshDefaultBackupHandler a))
    else
      match filesystem with
      | none => .error .crash
      | some filesystem =>
        if filesystem = "yaffs2" then .ok (some .mkyaffs2image)
        else if a.prefer_dedupe ≠ "true" then .ok (some .mkyaffs2image)
        else .ok (some (refreshDefaultBackupHandler a))

/-- The file system in the name of an image. -/
def imageFilesystem (vs : List Volume) (a : Answers) (mount_point : String) : String :=
  match volumeForPath vs mount_point, a.mounted with
  | some _, some (some filesystem) => filesystem
  | _, _ => "auto"

/-! ## Commands -/

/-- `dirname` -/
def dirname (path : String) : String :=
  let trimmed := path.toList.reverse.dropWhile (· == '/')
  let parent := trimmed.dropWhile (· != '/')
  if trimmed = [] then if path = "" then "." else "/"
  else if parent = [] then "."
  else if parent.dropWhile (· == '/') = [] then "/"
  else String.ofList (parent.dropWhile (· == '/')).reverse

/-- The directory of the blobs, from the name of a manifest. -/
def blobDir (backup_file_image : String) : String :=
  dirname (dirname (dirname backup_file_image)) ++ "/blobs"

/-- `strcmp(backup_path, "/data") == 0 && is_data_media()` -/
def excludesMedia (vs : List Volume) (backup_path : String) : Bool :=
  backup_path == "/data" && isDataMedia vs

/-- The words that follow `tar cv` up to the directory. -/
def tarExcludes (vs : List Volume) (backup_path : String) : String :=
  "--exclude=data/data/com.google.android.music/files/* " ++
    if excludesMedia vs backup_path then "--exclude 'media'" else ""

/-- The text that a handler hands to `__popen`. -/
def BackupHandler.command (vs : List Volume) (backup_path backup_file_image : String) : BackupHandler → String
  | .mkyaffs2image =>
    "cd " ++ backup_path ++ " ; mkyaffs2image . " ++ backup_file_image ++ ".img ; exit $?"
  | .tar_compress =>
    "cd $(dirname " ++ backup_path ++ ") ; touch " ++ backup_file_image ++ ".tar ; (tar cv " ++
      tarExcludes vs backup_path ++ " $(basename " ++ backup_path ++
      ") | split -a 1 -b 1000000000 /proc/self/fd/0 " ++ backup_file_image ++
      ".tar.) 2> /proc/self/fd/1 ; exit $?"
  | .tar_gzip_compress =>
    "cd $(dirname " ++ backup_path ++ ") ; touch " ++ backup_file_image ++ ".tar.gz ; (tar cv " ++
      tarExcludes vs backup_path ++ " $(basename " ++ backup_path ++
      ") | pigz -c | split -a 1 -b 1000000000 /proc/self/fd/0 " ++ backup_file_image ++
      ".tar.gz.) 2> /proc/self/fd/1 ; exit $?"
  | .dedupe_compress =>
    "dedupe c " ++ backup_path ++ " " ++ blobDir backup_file_image ++ " " ++ backup_file_image ++ ".dup " ++
      if excludesMedia vs backup_path then "./media" else ""

def PATH_MAX : Nat := 4096

/-- A character that the shell takes as it is, anywhere in a word. -/
def isPlainChar (c : Char) : Bool := c.isAlphanum || "/._-+,:@%=".toList.contains c

/-- An absolute path that is one word to the shell. -/
def isPlainPath (path : String) : Bool := path.toList.head? == some '/' && path.toList.all isPlainChar

/-- A command that writes one file. -/
def Output.leave (o : Output) (n : FileName) (d : Directory) : Directory × Int :=
  match o.file with
  | some content => (d.insert n content, o.status)
  | none => (d, o.status)

/-- `mkyaffs2image_wrapper` and `dedupe_compress_wrapper` -/
def imageWrapper (o : Output) (n : FileName) (d : Directory) : Directory × Int :=
  if o.popen then o.leave n d else (d, -1)

/-- The call `backup_handler(mount_point, tmp, callback)`. -/
def BackupHandler.run (o : Output) (backup_file_image : FileName) (d : Directory) :
    BackupHandler → Directory × Int
  | .mkyaffs2image => imageWrapper o (backup_file_image ++ ".img".toList) d
  | .tar_compress =>
    tarCompressWrapper ⟨backup_file_image, o.stream, o.room, o.tar_status, o.pigz_status, o.popen⟩ d
  | .tar_gzip_compress =>
    tarGzipCompressWrapper ⟨backup_file_image, o.stream, o.room, o.tar_status, o.pigz_status, o.popen⟩ d
  | .dedupe_compress => imageWrapper o (backup_file_image ++ ".dup".toList) d

/-- The directory of a file does not change with what is appended to its name. -/
theorem dirname_append {path suffix : String} (hpath : ∃ c ∈ path.toList.getLast?, c ≠ '/')
    (hsuffix : '/' ∉ suffix.toList) : dirname (path ++ suffix) = dirname path := by
  obtain ⟨c, hlast, hc⟩ := hpath
  obtain ⟨pre, hpre⟩ := List.getLast?_eq_some_iff.mp hlast
  have hpath : path.toList.reverse = c :: pre.reverse := by rw [hpre, List.reverse_append]; rfl
  have htrim : (suffix.toList.reverse ++ c :: pre.reverse).dropWhile (· == '/') =
      suffix.toList.reverse ++ c :: pre.reverse := by
    cases hs : suffix.toList.reverse with
    | nil => simp [hc]
    | cons x xs =>
      have hx : x ≠ '/' := fun hx => hsuffix (List.mem_reverse.mp (by simp [hs, hx]))
      simp [hx]
  have hparent : (suffix.toList.reverse ++ c :: pre.reverse).dropWhile (· != '/') =
      (c :: pre.reverse).dropWhile (· != '/') := by
    refine List.dropWhile_append_of_pos fun x hx => ?_
    have hx : x ≠ '/' := fun h => hsuffix (h ▸ List.mem_reverse.mp hx)
    simp [hx]
  have hself : (c :: pre.reverse).dropWhile (· == '/') = c :: pre.reverse := by simp [hc]
  unfold dirname
  rw [String.toList_append, List.reverse_append, hpath, htrim, hself]
  dsimp only
  have hne : suffix.toList.reverse ++ c :: pre.reverse ≠ [] := by simp
  rw [hparent, if_neg hne, if_neg (List.cons_ne_nil c pre.reverse)]

/-- A restore looks for the blobs where the backup put them. -/
theorem blobDir_append {image suffix : String} (himage : ∃ c ∈ image.toList.getLast?, c ≠ '/')
    (hsuffix : '/' ∉ suffix.toList) : blobDir (image ++ suffix) = blobDir image := by
  rw [blobDir, blobDir, dirname_append himage hsuffix]

/-! ## One partition -/

/-- `Make_MD5`: a file that cannot be opened gets no digest. -/
def makeMD5With (md5 : Bytes → List Char) (io : DigestIo) (d : Directory) : Directory :=
  writeAll d ((getFiles d).filterMap fun n =>
    if io.opens n then (io.room n).map fun k => (n ++ MD5_SUFFIX, (md5digest md5 d n).take k) else none)

/-- The test of `backup_path` behind the backup of a partition. -/
def makesDigests (backup_path : String) : Bool :=
  ["/data", "/cache", "/boot", "/system"].any fun s => s.toList <:+: backup_path.toList

/-- `<name>.<filesystem>` -/
def imageName (vs : List Volume) (a : Answers) (mount_point : String) : String :=
  basename mount_point ++ "." ++ imageFilesystem vs a mount_point

/-- The paths and commands of a backup fit their buffers. -/
def fitsBuffers (p : Phone) (a : Answers) (mount_point : String) (h : BackupHandler) : Bool :=
  let image := p.backup_path ++ "/" ++ imageName p.volumes a mount_point
  image.utf8ByteSize < PATH_MAX && (h.command p.volumes mount_point image).utf8ByteSize < PATH_MAX

/-- The paths of a backup mean the same to the shell. -/
def plainPaths (p : Phone) (a : Answers) (mount_point : String) : Bool :=
  isPlainPath mount_point && isPlainPath (p.backup_path ++ "/" ++ imageName p.volumes a mount_point)

variable (md5 : Bytes → List Char) (p : Phone) (a : Answers)

def nandroidBackupPartitionExtended (mount_point : String) (d : Directory) : Except Fault (Directory × Int) :=
  if a.mount ≠ 0 then .ok (d, 1)
  else if a.dircount = false then .error .crash
  else
    match getBackupHandler p.volumes a mount_point with
    | .error fault => .error fault
    | .ok none => .ok (d, -2)
    | .ok (some h) =>
      if fitsBuffers p a mount_point h = false then .error .overflow
      else if plainPaths p a mount_point = false then .error .shell
      else
        let (d, ret) := h.run a.output (imageName p.volumes a mount_point).toList d
        if ret ≠ 0 then .ok (d, ret)
        else if makesDigests p.backup_path && a.md5sum_enabled then .ok (makeMD5With md5 a.digests d, 0)
        else .ok (d, 0)

/-- `sprintf(tmp, "mkdir -p %s", backup_path)` and the path of a raw image. -/
def fitsRaw (name : String) : Bool :=
  ("mkdir -p " ++ p.backup_path).utf8ByteSize < PATH_MAX &&
    (p.backup_path ++ "/" ++ name ++ ".img").utf8ByteSize < PATH_MAX

def nandroidBackupPartition (root : String) (d : Directory) : Except Fault (Directory × Int) :=
  match volumeForPath p.volumes root with
  -- `return NULL`
  | none => .ok (d, 0)
  | some v =>
    if isFlashType v.fs_type then
      if fitsRaw p (basename root) then .ok (a.output.leave (basename root ++ ".img").toList d)
      else .error .overflow
    else nandroidBackupPartitionExtended md5 p a root d

/-- The two ways to back up a partition, and to restore it. -/
inductive Way
  | partition
  | extended
deriving DecidableEq

def Way.backup (mount_point : String) (d : Directory) : Way → Except Fault (Directory × Int)
  | .partition => nandroidBackupPartition md5 p a mount_point d
  | .extended => nandroidBackupPartitionExtended md5 p a mount_point d

/-! ## The backup directory -/

/-- What `ensure_path_mounted(backup_path)` and `statfs` of its volume return. -/
structure PathAnswers where
  mount : Int
  statfs : Int

/-- The checks of the backup path with which every backup begins. -/
def checkBackupPath (c : PathAnswers) : Int :=
  if c.mount ≠ 0 then 1
  else
    match volumeForPath p.volumes p.backup_path with
    | some _ => if c.statfs ≠ 0 then 1 else 0
    | none =>
      if startsWith p.backup_path "/sdcard" && isDataMedia p.volumes then
        match volumeForPath p.volumes "/data" with
        | some _ => if c.statfs ≠ 0 then 1 else 0
        | none => 0
      else 1

def nandroidAdvancedBackup (c : PathAnswers) (root : String) (d : Directory) : Except Fault (Directory × Int) :=
  if checkBackupPath p c ≠ 0 then .ok (d, 1) else nandroidBackupPartition md5 p a root d

/-! ## All partitions -/

inductive BackupPart
  | recovery
  | part (part : Part)
deriving DecidableEq

/-- What the calls answer during a full backup. -/
structure BackupAnswers where
  path : PathAnswers
  parts : BackupPart → Answers
  /-- `statfs` of the devices of `/wimax` and `/sd-ext`, and of `/sdcard/.android_secure` -/
  wimax_device : Int
  sd_ext_device : Int
  android_secure : Int
  sd_ext_mount : Int
  md5sum_enabled : Bool
  digests : DigestIo

variable (f : BackupAnswers)

def BackupPart.root : BackupPart → String
  | .recovery => "/recovery"
  | .part p => p.root

/-- What `nandroid_backup` does about a partition. -/
inductive PartStep
  | skip
  | wimax
  | backup (way : Way)

def partStep : BackupPart → PartStep
  | .part .wimax => if (volumeForPath p.volumes "/wimax").isSome ∧ f.wimax_device = 0 then .wimax else .skip
  | .part .datadata => if (volumeForPath p.volumes "/datadata").isSome then .backup .partition else .skip
  | .part .android_secure => if f.android_secure = 0 then .backup .extended else .skip
  | .part .cache => .backup .extended
  | .part .sd_ext =>
    if (volumeForPath p.volumes "/sd-ext").isSome ∧ f.sd_ext_device = 0 ∧ f.sd_ext_mount = 0 then .backup .partition
    else .skip
  | _ => .backup .partition

/-- `wimax.<serialno>.img` -/
def wimaxImage : String := "wimax." ++ p.serialno ++ ".img"

/-- One step of `nandroid_backup`. -/
def backupPart (part : BackupPart) (d : Directory) : Except Fault (Directory × Int) :=
  match partStep p f part with
  | .skip => .ok (d, 0)
  | .wimax =>
    let (d, ret) := (f.parts part).output.leave (wimaxImage p).toList d
    .ok (d, if ret ≠ 0 then 1 else 0)
  | .backup way => way.backup md5 p (f.parts part) part.root d

/-- The partitions in the order of `nandroid_backup`. -/
def backupOrder : List BackupPart :=
  [.part .boot, .part .boot1, .recovery, .part .wimax, .part .system, .part .system1, .part .data,
    .part .datadata, .part .android_secure, .part .cache, .part .sd_ext]

/-- The chain of `if (0 != (ret = ...)) return ret;`. -/
def backupParts : List BackupPart → Directory → Except Fault (Directory × Int)
  | [], d => .ok (d, 0)
  | part :: parts, d =>
    match backupPart md5 p f part d with
    | .error fault => .error fault
    | .ok (d, ret) => if ret ≠ 0 then .ok (d, ret) else backupParts parts d

def nandroidBackup (d : Directory) : Except Fault (Directory × Int) :=
  if checkBackupPath p f.path ≠ 0 then .ok (d, 1)
  else
    match backupParts md5 p f backupOrder d with
    | .error fault => .error fault
    | .ok (d, ret) =>
      if ret ≠ 0 then .ok (d, ret)
      else if f.md5sum_enabled then .ok (makeMD5With md5 f.digests d, 0)
      else .ok (d, 0)

/-! ## What a backup leaves behind -/

/-- The image of a partition. -/
inductive Product
  | raw
  | image (handler : BackupHandler) (filesystem : String)
deriving DecidableEq

/-- The name of the image. -/
def Product.file (mount_point : String) : Product → String
  | .raw => basename mount_point ++ ".img"
  | .image handler filesystem => basename mount_point ++ "." ++ filesystem ++ handler.suffix

/-- What `nandroid_backup_partition_extended` produces, if it gets there. -/
def extendedProduct (mount_point : String) : Option Product :=
  match getBackupHandler p.volumes a mount_point with
  | .ok (some h) => some (.image h (imageFilesystem p.volumes a mount_point))
  | _ => none

/-- What the backup of a partition produces, if it gets there. -/
def product (mount_point : String) : Way → Option Product
  | .extended => extendedProduct p a mount_point
  | .partition =>
    match volumeForPath p.volumes mount_point with
    | none => none
    | some v => if isFlashType v.fs_type then some .raw else extendedProduct p a mount_point

/-- The file is in the directory behind a step, and nothing else is new but its pieces and, if there are any,
digests. -/
structure Stores (digests : Prop) (file : FileName) (d d' : Directory) : Prop where
  mem : file ∈ d'
  kept : ∀ n ∈ d, n ∈ d'
  new : ∀ n ∈ d', n ∈ d ∨ n = file ∨ (∃ i < SPLIT_SUFFIXES, n = pieceName file i) ∨ MD5_SUFFIX <:+ n ∧ digests

section Stores

variable {md5 p a} {o : Output} {n image : FileName} {d d' : Directory} {mount_point : String} {digests : Prop}

theorem Stores.mono {digests' : Prop} (h : Stores digests n d d') (himp : digests → digests') :
    Stores digests' n d d' where
  mem := h.mem
  kept := h.kept
  new m hm := (h.new m hm).imp_right (Or.imp_right (Or.imp_right (And.imp_right himp)))

theorem leave_stores (h : o.leave n d = (d', 0)) : Stores False n d d' := by
  rw [Output.leave] at h
  split at h
  · obtain ⟨rfl, -⟩ := Prod.mk.injEq .. ▸ h
    refine ⟨AList.mem_insert _ |>.mpr (.inl rfl), fun n hn => AList.mem_insert _ |>.mpr (.inr hn), ?_⟩
    intro n hn
    exact ((AList.mem_insert _).mp hn).elim (fun h => .inr (.inl h)) .inl
  · rename_i hnone
    have hsome := o.file_of_ok (congrArg Prod.snd h)
    rw [hnone] at hsome
    cases hsome

theorem imageWrapper_stores (h : imageWrapper o n d = (d', 0)) : Stores False n d d' := by
  rw [imageWrapper] at h
  split at h
  · exact leave_stores h
  · cases congrArg Prod.snd h

theorem compress_stores {t : TarBackup} {format : ArchiveFormat} (h : t.compress format d = (d', 0)) :
    Stores False (t.file format) d d' := by
  have hsplit : t.splits := compress_status.mp (congrArg Prod.snd h)
  have hd : d' = writeAll (touch d (t.file format)) (pieces (t.file format) t.stream) :=
    (congrArg Prod.fst h).symm.trans (compress_dir hsplit)
  subst hd
  refine ⟨mem_writeAll.mpr (.inr (mem_touch.mpr (.inl rfl))),
    fun n hn => mem_writeAll.mpr (.inr (mem_touch.mpr (.inr hn))), fun n hn => ?_⟩
  rcases mem_writeAll.mp hn with hn | hn
  · obtain ⟨i, hi, rfl⟩ := (mem_pieces_iff _ t.stream hsplit.2.2).mp hn
    have := hsplit.2.2
    exact .inr (.inr (.inl ⟨i, by unfold SPLIT_BYTES at *; omega, rfl⟩))
  · exact (mem_touch.mp hn).elim (fun h => .inr (.inl h)) .inl

theorem run_stores {h : BackupHandler} (hrun : h.run o image d = (d', 0)) :
    Stores False (image ++ h.suffix.toList) d d' := by
  cases h with
  | mkyaffs2image => exact imageWrapper_stores hrun
  | tar_compress =>
    have htar : TarBackup.compress _ .tar d = (d', 0) := hrun
    exact compress_stores htar
  | tar_gzip_compress =>
    have htar : TarBackup.compress _ .tar_gz d = (d', 0) := hrun
    exact compress_stores htar
  | dedupe_compress => exact imageWrapper_stores hrun

/-- The files that `Make_MD5` adds are digests. -/
theorem mem_makeMD5With {md5 : Bytes → List Char} {io : DigestIo} (h : n ∈ makeMD5With md5 io d) :
    n ∈ d ∨ MD5_SUFFIX <:+ n := by
  rcases mem_writeAll.mp h with hn | hn
  · obtain ⟨f, hf, rfl⟩ := List.mem_map.mp hn
    obtain ⟨k, -, hk⟩ := List.mem_filterMap.mp hf
    split at hk
    · obtain ⟨j, -, rfl⟩ := Option.map_eq_some_iff.mp hk
      exact .inr (List.suffix_append _ _)
    · cases hk
  · exact .inl hn

theorem Stores.makeMD5With (h : Stores digests n d d') (hdigests : digests) (md5 : Bytes → List Char)
    (io : DigestIo) : Stores digests n d (makeMD5With md5 io d') where
  mem := mem_writeAll.mpr (.inr h.mem)
  kept m hm := mem_writeAll.mpr (.inr (h.kept m hm))
  new m hm := (mem_makeMD5With hm).elim (h.new m) fun hmd5 => .inr (.inr (.inr ⟨hmd5, hdigests⟩))

/-- With its handler the backup runs to the end. -/
theorem extended_returns (md5 : Bytes → List Char) (p : Phone) (a : Answers) (mount_point : String) (d : Directory)
    (h : BackupHandler) (hmount : a.mount = 0) (hdircount : a.dircount = true)
    (hhandler : getBackupHandler p.volumes a mount_point = .ok (some h))
    (hfits : fitsBuffers p a mount_point h = true) (hplain : plainPaths p a mount_point = true)
    (hret : (h.run a.output (imageName p.volumes a mount_point).toList d).2 = 0) :
    ∃ d', nandroidBackupPartitionExtended md5 p a mount_point d = .ok (d', 0) := by
  rw [nandroidBackupPartitionExtended, if_neg (not_not.mpr hmount), if_neg (by simp [hdircount]), hhandler]
  dsimp only
  rw [if_neg (by simp [hfits]), if_neg (by simp [hplain]), if_neg (not_not.mpr hret)]
  split
  · exact ⟨_, rfl⟩
  · exact ⟨_, rfl⟩

/-- The backup of a partition makes digests. -/
def Digests (p : Phone) (a : Answers) : Prop := makesDigests p.backup_path = true ∧ a.md5sum_enabled = true

/-- A backup by `nandroid_backup_partition_extended` that returns 0 has written its product, and the digests
of the files that are then in the directory. -/
theorem extended_ok (h : nandroidBackupPartitionExtended md5 p a mount_point d = .ok (d', 0)) :
    ∃ q, extendedProduct p a mount_point = some q ∧ Stores (Digests p a) (q.file mount_point).toList d d' ∧
      (Digests p a → ∃ d₁, d' = makeMD5With md5 a.digests d₁) := by
  rw [nandroidBackupPartitionExtended] at h
  split at h
  · cases h
  split at h
  · cases h
  rw [extendedProduct]
  split at h
  · cases h
  · cases h
  · rename_i handler hhandler
    refine ⟨_, by rw [hhandler], ?_⟩
    split at h
    · cases h
    split at h
    · cases h
    cases hrun : handler.run a.output (imageName p.volumes a mount_point).toList d with
    | mk d₁ ret =>
      rw [hrun] at h
      dsimp only at h
      split at h
      · rename_i hret
        exact absurd (congrArg Prod.snd (Except.ok.inj h)) hret
      · rename_i hret
        have hfile : (Product.file mount_point
            (.image handler (imageFilesystem p.volumes a mount_point))).toList =
            (imageName p.volumes a mount_point).toList ++ handler.suffix.toList := by
          rw [Product.file, imageName, String.toList_append]
        rw [hfile]
        have hstores := run_stores (hrun.trans (congrArg (Prod.mk d₁) (not_not.mp hret)))
        split at h
        · rename_i hdigests
          have hdigests : Digests p a := Bool.and_eq_true_iff.mp hdigests
          cases h
          exact ⟨(hstores.mono False.elim).makeMD5With hdigests md5 a.digests, fun _ => ⟨d₁, rfl⟩⟩
        · rename_i hno
          cases h
          exact ⟨hstores.mono False.elim, fun hdigests => absurd (Bool.and_eq_true_iff.mpr hdigests) hno⟩

theorem extendedProduct_ne_raw {q : Product} (h : extendedProduct p a mount_point = some q) : q ≠ .raw := by
  rw [extendedProduct] at h
  split at h
  · rw [← Option.some.inj h]
    nofun
  · cases h

/-- A backup that returns 0 has written its product, or there is no volume to be backed up. A raw image gets no
digest. -/
theorem backup_ok {way : Way} (h : way.backup md5 p a mount_point d = .ok (d', 0)) :
    (∃ q, product p a mount_point way = some q ∧
      Stores (q ≠ .raw ∧ Digests p a) (q.file mount_point).toList d d') ∨
      product p a mount_point way = none ∧ way = .partition ∧ volumeForPath p.volumes mount_point = none ∧ d' = d := by
  cases way with
  | extended =>
    obtain ⟨q, hq, hstores, -⟩ := extended_ok h
    exact .inl ⟨q, hq, hstores.mono fun hdigests => ⟨extendedProduct_ne_raw hq, hdigests⟩⟩
  | partition =>
    rw [Way.backup, nandroidBackupPartition] at h
    rw [product]
    split at h
    · rename_i hv
      cases h
      rw [hv]
      exact .inr ⟨rfl, rfl, rfl, rfl⟩
    · rename_i v hv
      rw [hv]
      split at h
      · rename_i hflash
        rw [if_pos hflash]
        split at h
        · exact .inl ⟨_, rfl, (leave_stores (Except.ok.inj h)).mono False.elim⟩
        · cases h
      · rename_i hflash
        rw [if_neg hflash]
        obtain ⟨q, hq, hstores, -⟩ := extended_ok h
        exact .inl ⟨q, hq, hstores.mono fun hdigests => ⟨extendedProduct_ne_raw hq, hdigests⟩⟩

end Stores

end Miui
