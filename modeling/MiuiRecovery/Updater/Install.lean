import MiuiRecovery.Edify.Expr

/-!
# The functions of the updater

`updater/install.c`: the functions that `RegisterInstallFunctions` adds to a script. What they write to
`stderr` and the SELinux labels are left out, and so is the clean-up of what is no argument. A call that
fails replies with the negated error number.

* `deleteFn`: the loop over the paths that are to be freed counts the wrong variable.
* `applyPatchFn`, `applyPatchCheckFn`: go on where the patches or the digests could not be read.
* `registeredFunctions`: the table of functions.
-/

namespace Miui
namespace Updater

open Prog (call)
open Edify

/-! ## Common ends -/

/-- A number as `%d` prints it. -/
def dec (n : Int) : Bytes := Bytes.ascii (toString n)

/-- `free` of some of the arguments -/
def freeList : List Nat → Prog EdifyOp Unit
  | [] => pure ()
  | i :: is => do
    call (.free i)
    freeList is

/-- `ErrorAbort(...); goto done;` -/
def failAfter (frees : List Nat) (msg : Bytes) : Body := do
  call (.setErrmsg (msg.take 4095))
  freeList frees
  null

/-- The label `done` with a result. -/
def giveAfter (frees : List Nat) (result : Bytes) : Body := do
  freeList frees
  stringValue result

/-- `"%s() expects %s, got %d"` -/
def expects (name : Bytes) (what : String) (argc : Nat) : Body :=
  errorAbort (name ++ Bytes.ascii s!"() expects {what}, got " ++ dec argc)

/-- `"%s argument to %s() can't be empty"` -/
def cantBeEmpty (frees : List Nat) (what : String) (name : Bytes) : Body :=
  failAfter frees (Bytes.ascii s!"{what} argument to " ++ name ++ Bytes.ascii "() can't be empty")

/-- The arguments, or `NULL` if one of them is. -/
def withArgs {β : Type} (read : Prog EdifyOp (Option (List β))) (k : List β → Body) : Body := do
  match ← read with
  | none => null
  | some args => k args

/-! ## Mounting and formatting -/

def mountBody (name fs_type partition_type location mount_point : Bytes) : Body :=
  if fs_type = [] then cantBeEmpty [0, 1, 2, 3] "fs_type" name
  else if partition_type = [] then cantBeEmpty [0, 1, 2, 3] "partition_type" name
  else if location = [] then cantBeEmpty [0, 1, 2, 3] "location" name
  else if mount_point = [] then cantBeEmpty [0, 1, 2, 3] "mount_point" name
  else do
    let _ ← sys "mkdir" [mount_point] [0o755]
    if partition_type = Bytes.ascii "MTD" then do
      let _ ← sys "mtd_scan_partitions" [] []
      let mtd ← sys "mtd_find_partition_by_name" [location] []
      if mtd.ret = 0 then giveAfter [0, 1, 2, 3] []
      else do
        let r ← sys "mtd_mount_partition" [location, mount_point, fs_type] [0]
        if r.ret ≠ 0 then giveAfter [0, 1, 2, 3] [] else giveAfter [0, 1, 2] mount_point
    else do
      let r ← sys "mount" [location, mount_point, fs_type] []
      if r.ret < 0 then giveAfter [0, 1, 2, 3] [] else giveAfter [0, 1, 2] mount_point

def mountFn (name : Bytes) (argc : Nat) : Body :=
  if argc ≠ 4 then expects name "4 args" argc
  else withArgs (readArgs 4) fun args =>
    mountBody name (args.getD 0 []) (args.getD 1 []) (args.getD 2 []) (args.getD 3 [])

def isMountedBody (mount_point : Bytes) : Body :=
  if mount_point = [] then failAfter [0] (Bytes.ascii "mount_point argument to unmount() can't be empty")
  else do
    let _ ← sys "scan_mounted_volumes" [] []
    let vol ← sys "find_mounted_volume_by_mount_point" [mount_point] []
    if vol.ret = 0 then giveAfter [0] [] else stringValue mount_point

def isMountedFn (name : Bytes) (argc : Nat) : Body :=
  if argc ≠ 1 then expects name "1 arg" argc
  else withArgs (readArgs 1) fun args => isMountedBody (args.getD 0 [])

def unmountBody (mount_point : Bytes) : Body :=
  if mount_point = [] then failAfter [0] (Bytes.ascii "mount_point argument to unmount() can't be empty")
  else do
    let _ ← sys "scan_mounted_volumes" [] []
    let vol ← sys "find_mounted_volume_by_mount_point" [mount_point] []
    if vol.ret = 0 then giveAfter [0] []
    else do
      let _ ← sys "unmount_mounted_volume" [mount_point] []
      stringValue mount_point

def unmountFn (name : Bytes) (argc : Nat) : Body :=
  if argc ≠ 1 then expects name "1 arg" argc
  else withArgs (readArgs 1) fun args => unmountBody (args.getD 0 [])

/-- Formatting an MTD partition: find, open, erase, close. -/
def formatMtd (location : Bytes) : Body := do
  let _ ← sys "mtd_scan_partitions" [] []
  let mtd ← sys "mtd_find_partition_by_name" [location] []
  if mtd.ret = 0 then giveAfter [0, 1, 2] []
  else do
    let ctx ← sys "mtd_write_partition" [location] []
    if ctx.ret = 0 then giveAfter [0, 1, 2] []
    else do
      let erased ← sys "mtd_erase_blocks" [location] [-1]
      if erased.ret = -1 then do
        let _ ← sys "mtd_write_close" [location] []
        giveAfter [0, 1, 2] []
      else do
        let closed ← sys "mtd_write_close" [location] []
        if closed.ret ≠ 0 then giveAfter [0, 1, 2] [] else giveAfter [0, 1] location

def formatBody (name fs_type partition_type location fs_size mount_point : Bytes) : Body :=
  if fs_type = [] then cantBeEmpty [0, 1, 2] "fs_type" name
  else if partition_type = [] then cantBeEmpty [0, 1, 2] "partition_type" name
  else if location = [] then cantBeEmpty [0, 1, 2] "location" name
  else if mount_point = [] then cantBeEmpty [0, 1, 2] "mount_point" name
  else if partition_type = Bytes.ascii "MTD" then formatMtd location
  else if fs_type = Bytes.ascii "ext4" then do
    let status ← sys "make_ext4fs" [location, fs_size, mount_point] []
    if status.ret ≠ 0 then giveAfter [0, 1, 2] [] else giveAfter [0, 1] location
  else do
    freeList [0, 1, 2]
    null

def formatFn (name : Bytes) (argc : Nat) : Body :=
  if argc ≠ 5 then expects name "5 args" argc
  else withArgs (readArgs 5) fun args =>
    formatBody name (args.getD 0 []) (args.getD 1 []) (args.getD 2 []) (args.getD 3 []) (args.getD 4 [])

/-! ## Files -/

/-- `for (j = 0; j < i; ++i) free(paths[j]);`: `j` stays 0, and `i` counts up to the overflow of an
`int`. -/
def deleteCleanup : Nat → Prog EdifyOp Unit
  | 0 => call .crash
  | n + 1 => do
    call (.free 0)
    deleteCleanup n

/-- The paths of `DeleteFn`, `n` more from `i` on. -/
def deletePaths : Nat → Nat → List Bytes → Prog EdifyOp (Option (List Bytes))
  | 0, _, paths => pure (some paths)
  | n + 1, i, paths => do
    match ← call (.evaluate i) with
    | some path => deletePaths n (i + 1) (paths ++ [path])
    | none =>
      if 0 < i then do
        deleteCleanup (2 ^ 31 - i)
        pure none
      else pure none

/-- The loop of `DeleteFn` over its paths, from `i` on. -/
def deleteLoop (recursive : Bool) : Nat → List Bytes → Int → Body
  | _, [], success => stringValue (dec success)
  | i, path :: paths, success => do
    let r ← sys (if recursive then "dirUnlinkHierarchy" else "unlink") [path] []
    call (.free i)
    deleteLoop recursive (i + 1) paths (if r.ret = 0 then success + 1 else success)

def deleteFn (name : Bytes) (argc : Nat) : Body :=
  withArgs (deletePaths argc 0 []) fun paths =>
    deleteLoop (name = Bytes.ascii "delete_recursive") 0 paths 0

def packageExtractDirFn (name : Bytes) (argc : Nat) : Body :=
  if argc ≠ 2 then expects name "2 args" argc
  else withArgs (readArgs 2) fun args => do
    let success ← sys "mzExtractRecursive" [args.getD 0 [], args.getD 1 []] [1, 1217592000]
    giveAfter [0, 1] (boolString (success.ret != 0))

/-- The version of two arguments extracts to a file. -/
def extractToFile (zip_path dest_path : Bytes) : Body := do
  let entry ← sys "mzFindZipEntry" [zip_path] []
  if entry.ret = 0 then giveAfter [0, 1] []
  else do
    let f ← sys "fopen" [dest_path, Bytes.ascii "wb"] []
    if f.ret < 0 then giveAfter [0, 1] []
    else do
      let success ← sys "mzExtractZipEntryToFile" [zip_path] [f.ret]
      let _ ← sys "fclose" [] [f.ret]
      giveAfter [0, 1] (boolString (success.ret != 0))

/-- The version of one argument returns the contents of the file. -/
def extractToBlob (zip_path : Bytes) : Body := do
  let entry ← sys "mzFindZipEntry" [zip_path] []
  if entry.ret = 0 then do
    call (.free 0)
    pure (some (.blob (-1) []))
  else do
    let size ← sys "mzGetZipEntryUncompLen" [zip_path] []
    let success ← sys "mzExtractZipEntryToBuffer" [zip_path] [size.ret]
    call (.free 0)
    pure (some (if success.ret ≠ 0 then .blob size.ret success.data else .blob (-1) []))

def packageExtractFileFn (name : Bytes) (argc : Nat) : Body :=
  if argc ≠ 1 ∧ argc ≠ 2 then expects name "1 or 2 args" argc
  else if argc = 2 then withArgs (readArgs 2) fun args => extractToFile (args.getD 0 []) (args.getD 1 [])
  else withArgs (readArgs 1) fun args => extractToBlob (args.getD 0 [])

/-- The loop of `SymlinkFn` over the sources, from `argv[i]` on; `bad` counts the failures. -/
def symlinkLoop (name target : Bytes) : Nat → List Bytes → Nat → Body
  | _, [], bad =>
    if bad ≠ 0 then errorAbort (name ++ Bytes.ascii ": some symlinks failed") else stringValue []
  | i, src :: srcs, bad => do
    let unlinked ← sys "unlink" [src] []
    -- 2 is `ENOENT`
    let bad := if unlinked.ret < 0 ∧ unlinked.ret ≠ -2 then bad + 1 else bad
    let parents ← sys "make_parents" [src] []
    let bad := if parents.ret ≠ 0 then bad + 1 else bad
    let linked ← sys "symlink" [target, src] []
    call (.free i)
    symlinkLoop name target (i + 1) srcs (if linked.ret < 0 then bad + 1 else bad)

def symlinkFn (name : Bytes) (argc : Nat) : Body :=
  if argc = 0 then expects name "1+ args" argc
  else do
    match ← call (.evaluate 0) with
    | none => null
    | some target => do
      match ← readVarArgs 1 (argc - 1) with
      | none => do
        call (.free 0)
        null
      | some srcs => symlinkLoop name target 1 srcs 0

/-- The value of a digit in a base up to 16. -/
def digitValue (c : UInt8) : Nat :=
  if 48 ≤ c ∧ c ≤ 57 then c.toNat - 48
  else if 97 ≤ c ∧ c ≤ 102 then c.toNat - 87
  else if 65 ≤ c ∧ c ≤ 70 then c.toNat - 55
  else 16

/-- The number at the front of a string in a base, and what is left. -/
def readDigits (base : Nat) (s : Bytes) : Nat × Bytes :=
  ((s.takeWhile fun c => digitValue c < base).foldl (fun n c => base * n + digitValue c) 0,
    s.dropWhile fun c => digitValue c < base)

/-- `strtoul(str, &end, 0)` of a string without a sign: the base is that of its prefix. -/
def strtoulDigits : Bytes → Nat × Bytes
  | 48 :: 120 :: c :: s =>
    if digitValue c < 16 then readDigits 16 (c :: s) else (0, 120 :: c :: s)
  | 48 :: 88 :: c :: s =>
    if digitValue c < 16 then readDigits 16 (c :: s) else (0, 88 :: c :: s)
  | 48 :: s => readDigits 8 (48 :: s)
  | s => readDigits 10 s

/-- `strtoul(str, &end, 0)`, where it reads the string to its end and the string is not empty. -/
def strtoulAll (str : Bytes) : Option Int :=
  let s := str.dropWhile fun c => c = 32 ∨ 9 ≤ c ∧ c ≤ 13
  let r : Int × Bytes := match s with
    | 45 :: s => (-(min (strtoulDigits s).1 (2 ^ 32 - 1) : Int), (strtoulDigits s).2)
    | 43 :: s => (min (strtoulDigits s).1 (2 ^ 32 - 1), (strtoulDigits s).2)
    | s => (min (strtoulDigits s).1 (2 ^ 32 - 1), (strtoulDigits s).2)
  if str ≠ [] ∧ r.2 = [] then some r.1 else none

/-- The loop over the files of `set_perm`. -/
def setPermLoop (uid gid mode : Int) : List Bytes → Nat → Prog EdifyOp Nat
  | [], bad => pure bad
  | file :: files, bad => do
    let owned ← sys "chown" [file] [uid, gid]
    let bad := if owned.ret < 0 then bad + 1 else bad
    let changed ← sys "chmod" [file] [mode]
    setPermLoop uid gid mode files (if changed.ret < 0 then bad + 1 else bad)

/-- The loop over the directories of `set_perm_recursive`. -/
def setPermRecursiveLoop (uid gid dir_mode file_mode : Int) : List Bytes → Prog EdifyOp Unit
  | [] => pure ()
  | dir :: dirs => do
    let _ ← sys "dirSetHierarchyPermissions" [dir] [uid, gid, dir_mode, file_mode]
    setPermRecursiveLoop uid gid dir_mode file_mode dirs

/-- A number among the arguments of `SetPermFn`. -/
def permArg (name : Bytes) (args : List Bytes) (i : Nat) (what : String) (k : Int → Body) : Body :=
  match strtoulAll (args.getD i []) with
  | none => failAfter (List.range args.length)
    (name ++ Bytes.ascii ": \"" ++ args.getD i [] ++ Bytes.ascii s!"\" not a valid {what}")
  | some n => k n

def setPermBody (name : Bytes) (recursive : Bool) (args : List Bytes) : Body :=
  permArg name args 0 "uid" fun uid => permArg name args 1 "gid" fun gid =>
    if recursive then
      permArg name args 2 "dirmode" fun dir_mode => permArg name args 3 "filemode" fun file_mode => do
        setPermRecursiveLoop uid gid dir_mode file_mode (args.drop 4)
        giveAfter (List.range args.length) []
    else
      permArg name args 2 "mode" fun mode => do
        let bad ← setPermLoop uid gid mode (args.drop 3) 0
        freeList (List.range args.length)
        if bad ≠ 0 then errorAbort (name ++ Bytes.ascii ": some changes failed") else stringValue []

def setPermFn (name : Bytes) (argc : Nat) : Body :=
  let recursive : Bool := name = Bytes.ascii "set_perm_recursive"
  let min_args := if recursive then 5 else 4
  if argc < min_args then expects name s!"{min_args}+ args" argc
  else withArgs (readVarArgs 0 argc) fun args => setPermBody name recursive args

/-! ## Properties -/

def getPropFn (name : Bytes) (argc : Nat) : Body :=
  if argc ≠ 1 then expects name "1 arg" argc
  else do
    match ← call (.evaluate 0) with
    | none => null
    | some key => do
      let value ← sys "property_get" [key, []] []
      call (.free 0)
      stringValue value.data

def MAX_FILE_GETPROP_SIZE : Int := 65536

/-- `FileGetPropFn` behind its arguments. The scan of the lines is one call here, which fails at a
malformed line. -/
def fileGetPropBody (name filename key : Bytes) : Body := do
  let st ← sys "stat" [filename] []
  if st.ret < 0 then
    failAfter [0, 1] (name ++ Bytes.ascii ": failed to stat \"" ++ filename ++ Bytes.ascii "\": " ++ st.data)
  else if st.ret > MAX_FILE_GETPROP_SIZE then
    failAfter [0, 1] (filename ++ Bytes.ascii " too large for " ++ name ++ Bytes.ascii " (max 65536)")
  else do
    let f ← sys "fopen" [filename, Bytes.ascii "rb"] []
    if f.ret < 0 then
      failAfter [0, 1] (name ++ Bytes.ascii ": failed to open " ++ filename ++ Bytes.ascii ": " ++ f.data)
    else do
      let buffer ← sys "fread" [filename] [st.ret]
      let _ ← sys "fclose" [] [f.ret]
      if buffer.ret ≠ st.ret then
        failAfter [0, 1] (name ++ Bytes.ascii ": failed to read " ++ dec (st.ret + 1) ++
          Bytes.ascii " bytes from " ++ filename)
      else do
        let value ← sys "scan_properties" [buffer.data, key] []
        if value.ret < 0 then
          failAfter [0, 1] (name ++ Bytes.ascii ": malformed line \"" ++ value.data ++ Bytes.ascii "\": " ++
            filename ++ Bytes.ascii " not a prop file?")
        else giveAfter [0, 1] value.data

/-- Unlike most of the functions, this one does not look at `argc`. -/
def fileGetPropFn (name : Bytes) : Body :=
  withArgs (readArgs 2) fun args => fileGetPropBody name (args.getD 0 []) (args.getD 1 [])

/-! ## Images and patches -/

/-- The data of a value, as `v->data` points to them. -/
def dataOf : Edify.Value → Bytes
  | .string data => data
  | .blob _ data => data

def isString : Edify.Value → Bool
  | .string _ => true
  | .blob _ _ => false

def writeRawImageBody (name : Bytes) (contents partition_value : Edify.Value) : Body :=
  if isString partition_value = false then
    failAfter [1, 0] (Bytes.ascii "partition argument to " ++ name ++ Bytes.ascii " must be string")
  else if dataOf partition_value = [] then
    failAfter [1, 0] (Bytes.ascii "partition argument to " ++ name ++ Bytes.ascii " can't be empty")
  else if isString contents && dataOf contents == [] then
    failAfter [1, 0] (Bytes.ascii "file argument to " ++ name ++ Bytes.ascii " can't be empty")
  else do
    let r ← sys "restore_raw_partition" [dataOf partition_value, dataOf contents] []
    giveAfter [1, 0] (if r.ret = 0 then dataOf partition_value else [])

def writeRawImageFn (name : Bytes) : Body :=
  withArgs (readValueArgs 2) fun args =>
    writeRawImageBody name (args.getD 0 (.string [])) (args.getD 1 (.string []))

def applyPatchSpaceFn (name : Bytes) : Body :=
  withArgs (readArgs 1) fun args =>
    let bytes_str := args.getD 0 []
    if sizeT (strtol bytes_str) = 0 ∧ strtolEnd bytes_str = bytes_str then do
      call (.setErrmsg ((name ++ Bytes.ascii "(): can't parse \"" ++ bytes_str ++
        Bytes.ascii "\" as byte count\n\n").take 4095))
      call (.free 0)
      null
    else do
      let full ← sys "CacheSizeCheck" [] [sizeT (strtol bytes_str)]
      stringValue (boolString (full.ret == 0))

/-- The check of the types of the patches: the message of the first that is wrong. -/
def patchTypeError (name : Bytes) : Nat → List Edify.Value → Option Bytes
  | i, sha1 :: patch :: rest =>
    if isString sha1 = false then some (name ++ Bytes.ascii "(): sha-1 #" ++ dec i ++ Bytes.ascii " is not string")
    else if isString patch then some (name ++ Bytes.ascii "(): patch #" ++ dec i ++ Bytes.ascii " is not blob")
    else patchTypeError name (i + 1) rest
  | _, _ => none

/-- `ApplyPatchFn` behind its patches. The loop over `patches` dereferences it without a check. -/
def applyPatchBody (name source_filename target_filename target_sha1 : Bytes) (target_size : Int)
    (patches : Option (List Edify.Value)) : Body :=
  match patches with
  | none => do
    call .crash
    null
  | some patches =>
    match patchTypeError name 0 patches with
    | some msg => failAfter ((List.range patches.length).map (4 + ·)) msg
    | none => do
      let result ← sys "applypatch" ([source_filename, target_filename, target_sha1] ++ patches.map dataOf)
        [target_size]
      giveAfter ((List.range patches.length).map (4 + ·)) (boolString (result.ret == 0))

def applyPatchFn (name : Bytes) (argc : Nat) : Body :=
  if argc < 6 ∨ argc % 2 = 1 then
    errorAbort (name ++ Bytes.ascii "(): expected at least 6 args and an even number, got " ++ dec argc)
  else withArgs (readArgs 4) fun args =>
    let target_size_str := args.getD 3 []
    if sizeT (strtol target_size_str) = 0 ∧ strtolEnd target_size_str = target_size_str then
      failAfter [0, 1, 2, 3]
        (name ++ Bytes.ascii "(): can't parse \"" ++ target_size_str ++ Bytes.ascii "\" as byte count")
    else do
      let patches ← readValueVarArgs 4 (argc - 4)
      applyPatchBody name (args.getD 0 []) (args.getD 1 []) (args.getD 2 []) (sizeT (strtol target_size_str))
        patches

/-- `ApplyPatchCheckFn` behind its digests. Without them, the call is made all the same, and the loop that
frees them dereferences `NULL`. -/
def applyPatchCheckBody (filename : Bytes) (patchcount : Nat) (sha1s : Option (List Bytes)) : Body := do
  let result ← sys "applypatch_check" (filename :: sha1s.getD []) [patchcount]
  match sha1s with
  | none => do
    call .crash
    null
  | some sha1s => giveAfter ((List.range sha1s.length).map (1 + ·)) (boolString (result.ret == 0))

def applyPatchCheckFn (name : Bytes) (argc : Nat) : Body :=
  if argc < 1 then errorAbort (name ++ Bytes.ascii "(): expected at least 1 arg, got " ++ dec argc)
  else withArgs (readArgs 1) fun args => do
    let sha1s ← readVarArgs 1 (argc - 1)
    applyPatchCheckBody (args.getD 0 []) (argc - 1) sha1s

/-! ## Progress and programs -/

def showProgressFn (name : Bytes) (argc : Nat) : Body :=
  if argc ≠ 2 then expects name "2 args" argc
  else withArgs (readArgs 2) fun args => do
    let _ ← sys "progress" [args.getD 0 []] [strtol (args.getD 1 [])]
    giveAfter [1] (args.getD 0 [])

def setProgressFn (name : Bytes) (argc : Nat) : Body :=
  if argc ≠ 1 then expects name "1 arg" argc
  else withArgs (readArgs 1) fun args => do
    let _ ← sys "set_progress" [args.getD 0 []] []
    stringValue (args.getD 0 [])

/-- What `strtok(buffer, "\n")` leaves of a buffer as a C string. -/
def afterStrtok (buffer : Bytes) : Bytes :=
  buffer.takeWhile (· == 10) ++ (buffer.dropWhile (· == 10)).takeWhile (· != 10)

/-- The lines of a buffer as commands for the pipe. -/
def printLines : List Bytes → Prog EdifyOp Unit
  | [] => pure ()
  | line :: lines => do
    let _ ← sys "ui_print" [line] []
    printLines lines

def uiPrintFn (argc : Nat) : Body :=
  withArgs (readVarArgs 0 argc) fun args => do
    freeArgs 0 argc
    printLines (CString.tokens (· == 10) args.flatten ++ [[]])
    stringValue (afterStrtok args.flatten)

def wipeCacheFn (name : Bytes) (argc : Nat) : Body :=
  if argc ≠ 0 then expects name "no args" argc
  else do
    let _ ← sys "wipe_cache" [] []
    stringValue (Bytes.ascii "t")

def runProgramFn (name : Bytes) (argc : Nat) : Body :=
  if argc < 1 then errorAbort (name ++ Bytes.ascii "() expects at least 1 arg")
  else withArgs (readVarArgs 0 argc) fun args => do
    let status ← sys "run_program" args []
    freeArgs 0 argc
    stringValue (dec status.ret)

/-! ## Files and digests -/

def hexDigit (d : UInt8) : UInt8 := if d < 10 then 48 + d else 87 + d

/-- `PrintSha1(digest)` -/
def printSha1 (digest : Bytes) : Bytes :=
  List.flatMap (fun b : UInt8 => [hexDigit (b >>> 4), hexDigit (b &&& 15)]) digest

/-- The loop of `Sha1CheckFn` over the values, from `argv[i]` on; the value that matches is returned. -/
def sha1CheckLoop (digest : Bytes) : Nat → List Edify.Value → Body
  | _, [] => stringValue []
  | i, v :: vs =>
    if isString v = true ∧ parseSha1 (dataOf v) = some digest then do
      freeList ((List.range vs.length).map (i + 1 + ·))
      pure (some v)
    else do
      call (.free i)
      sha1CheckLoop digest (i + 1) vs

/-- The size of a value. -/
def sizeOf : Edify.Value → Int
  | .string data => data.length
  | .blob size _ => size

def sha1CheckBody : List Edify.Value → Body
  | [] => null
  | v :: vs =>
    if sizeOf v < 0 then stringValue []
    else do
      let digest ← sys "SHA" [dataOf v] [sizeOf v]
      call (.free 0)
      if vs = [] then stringValue (printSha1 digest.data) else sha1CheckLoop digest.data 1 vs

def sha1CheckFn (name : Bytes) (argc : Nat) : Body :=
  if argc < 1 then errorAbort (name ++ Bytes.ascii "() expects at least 1 arg")
  else withArgs (readValueVarArgs 0 argc) sha1CheckBody

def readFileFn (name : Bytes) (argc : Nat) : Body :=
  if argc ≠ 1 then expects name "1 arg" argc
  else withArgs (readArgs 1) fun args => do
    let fc ← sys "LoadFileContents" [args.getD 0 []] []
    if fc.ret ≠ 0 then
      failAfter [0] (name ++ Bytes.ascii "() loading \"" ++ args.getD 0 [] ++ Bytes.ascii "\" failed: " ++ fc.data)
    else do
      call (.free 0)
      pure (some (.blob fc.data.length fc.data))

/-! ## The table -/

/-- The functions of `RegisterBuiltins`, with the body of each for its name and `argc`. -/
def builtins : List (String × (Bytes → Nat → Body)) :=
  [("ifelse", fun _ => ifElseFn), ("abort", fun _ => abortFn), ("assert", fun _ => assertFn),
    ("concat", fun _ => concatFn), ("is_substring", fun _ _ => substringFn), ("stdout", fun _ => stdoutFn),
    ("sleep", fun _ _ => sleepFn), ("less_than_int", fun _ => lessThanIntFn),
    ("greater_than_int", fun _ => greaterThanIntFn)]

/-- The functions of `RegisterInstallFunctions`. -/
def installFunctions : List (String × (Bytes → Nat → Body)) :=
  [("mount", mountFn), ("is_mounted", isMountedFn), ("unmount", unmountFn), ("format", formatFn),
    ("show_progress", showProgressFn), ("set_progress", setProgressFn), ("delete", deleteFn),
    ("delete_recursive", deleteFn), ("package_extract_dir", packageExtractDirFn),
    ("package_extract_file", packageExtractFileFn), ("symlink", symlinkFn), ("set_perm", setPermFn),
    ("set_perm_recursive", setPermFn), ("getprop", getPropFn), ("file_getprop", fun name _ => fileGetPropFn name),
    ("write_raw_image", fun name _ => writeRawImageFn name), ("apply_patch", applyPatchFn),
    ("apply_patch_check", applyPatchCheckFn), ("apply_patch_space", fun name _ => applyPatchSpaceFn name),
    ("read_file", readFileFn), ("sha1_check", sha1CheckFn), ("wipe_cache", wipeCacheFn),
    ("ui_print", fun _ => uiPrintFn), ("run_program", runProgramFn)]

def registeredFunctions : List (String × (Bytes → Nat → Body)) := builtins ++ installFunctions

end Updater
end Miui
