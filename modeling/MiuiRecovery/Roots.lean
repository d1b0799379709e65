import MiuiRecovery.Lib.Prog
import Mathlib.Tactic.Common

/-!
# The volume table and formatting

`roots.cpp`: the volumes of `recovery.fstab`, and the functions that format them. The calls that
change a partition are recorded in a log, in order and with their status.

* `volumeForPath_mount_point`: a path in the root directory is found at its own mount point.
* `forList_eq_nil`: the shell takes the `|` in `^[media|share]$` for a pipe, so that the loop of
  `format_unknown_device` over `/data` runs over no entry.
* `formatVolume_spec`, `formatDevice_spec`: what each of them touches, and that a touch that fails
  ends them with a status other than 0.
-/

namespace Miui

open Prog (Sem Reaches Returns call)

/-! ## The volume table -/

/-- The columns of a line of `recovery.fstab` that formatting reads. -/
structure Volume where
  mount_point : String
  fs_type : String
  device : String
  /-- `strtok` returns no empty token. -/
  mount_point_ne : mount_point ≠ ""
deriving DecidableEq

theorem system_ne : "/system" ≠ "" := by decide

theorem data_ne : "/data" ≠ "" := by decide

/-- `path` is `mount_point`, or it goes on with a slash. -/
def mountPointMatches (mount_point path : String) : Bool :=
  mount_point.toList.isPrefixOf path.toList &&
    ((path.toList.drop mount_point.toList.length).head?.all (· == '/'))

def volumeForPath (vs : List Volume) (path : String) : Option Volume :=
  vs.find? fun v => mountPointMatches v.mount_point path

def isDataMediaVolume (v : Volume) : Bool := v.fs_type == "datamedia" || v.fs_type == "datashare"

def isDataMedia (vs : List Volume) : Bool := vs.any isDataMediaVolume

/-- `strstr(path, s) == path` -/
def startsWith (path s : String) : Bool := s.toList.isPrefixOf path.toList

/-- A path in the root directory is found at its own mount point. -/
theorem volumeForPath_mount_point {vs : List Volume} {path : String} {v : Volume}
    (h : volumeForPath vs path = some v) (hp : '/' ∉ path.toList.tail) : v.mount_point = path := by
  obtain ⟨t, ht⟩ : v.mount_point.toList <+: path.toList := by
    have := List.find?_some h
    rw [mountPointMatches, Bool.and_eq_true] at this
    exact List.isPrefixOf_iff_prefix.mp this.1
  have hne : v.mount_point.toList ≠ [] := fun h0 => v.mount_point_ne (String.toList_eq_nil_iff.mp h0)
  obtain ⟨c, cs, hc⟩ := List.exists_cons_of_ne_nil hne
  cases t with
  | nil => exact String.toList_inj.mp (by rw [← ht, List.append_nil])
  | cons d ds =>
    have hd : d = '/' := by
      have := List.find?_some h
      rw [mountPointMatches, Bool.and_eq_true, ← ht, List.drop_left] at this
      simpa using this.2
    rw [← ht, hc, hd] at hp
    simp at hp

/-! ## The shell loop over `/data` -/

/-- The entries that hold the internal storage. -/
def storageEntries : List String := ["media", "share"]

/-- The command substitution in `for f in $(...)` of `format_unknown_device`. -/
def listCommand : List Char := "ls -a | grep -v ^[media|share]$".toList

/-- The commands of a pipeline without quotes, each as its words: an unquoted `|` separates
commands, also inside brackets. -/
def pipeline (command : List Char) : List (List (List Char)) :=
  (command.splitOn '|').map fun c => (c.splitOn ' ').filter (· ≠ [])

/-- What a command of the pipeline writes. There is no command `share]$` (nor any other than `ls`
and `grep`), so it writes nothing. -/
def runCommand (grep : List (List Char) → List String → List String) (entries : List String)
    (words : List (List Char)) (stdin : List String) : List String :=
  match words with
  | ['l', 's'] :: _ => "." :: ".." :: entries
  | ['g', 'r', 'e', 'p'] :: args => grep args stdin
  | _ => []

/-- The entries that the loop removes from a directory. -/
def forList (grep : List (List Char) → List String → List String) (entries : List String) :
    List String :=
  (pipeline listCommand).foldl (fun stdin words => runCommand grep entries words stdin) []

/-- The loop runs over nothing, whatever `grep` makes of its pattern. -/
theorem forList_eq_nil (grep : List (List Char) → List String → List String)
    (entries : List String) : forList grep entries = [] := by
  have h : pipeline listCommand = [["ls".toList, "-a".toList],
      ["grep".toList, "-v".toList, "^[media".toList], ["share]$".toList]] := by decide
  rw [forList, h]
  rfl

/-! ## Calls -/

/-- How a device is reformatted. -/
inductive Reformat
  | mtd_erase_blocks
  | make_ext4fs
  | erase_raw_partition
  | format_ext3_device
  | format_ext2_device
  | format_rfs_device
deriving DecidableEq

/-- The restore handlers (`nandroid.cpp`). -/
inductive RestoreHandler
  | unyaffs
  | tar_extract
  | tar_gzip_extract
  | dedupe_extract
deriving DecidableEq

/-- A change of a partition: of a block device, or of the entries below a path. -/
inductive Touch
  | reformat (how : Reformat) (device : String)
  | flash (device image : String)
  | clear (path : String)
  | extract (handler : RestoreHandler) (image path : String)
deriving DecidableEq

/-- A change and its status. -/
structure Event where
  touch : Touch
  ret : Int
deriving DecidableEq

inductive RootsOp : Type → Type
  | ensurePathMounted (path : String) : RootsOp Int
  | unmountVolume (mount_point : String) : RootsOp Int
  | mtdFindPartition (name : String) : RootsOp Bool
  /-- `stat` of a device -/
  | statDevice (device : String) : RootsOp Int
  /-- a call that changes a partition -/
  | act (touch : Touch) : RootsOp Int
  /-- a shell command that removes entries, whose status is not looked at -/
  | remove (path : String) : RootsOp Unit
  /-- the file system that is mounted at a mount point -/
  | mountedFilesystem (mount_point : String) : RootsOp (Option String)
  /-- the value of the property `ro.cwm.prefer_dedupe` -/
  | preferDedupe : RootsOp String
  /-- `md5sum_enabled()` and `Check_MD5(backup_path)` -/
  | checkMd5 (backup_path : String) : RootsOp Bool

/-- The changes so far, and the entries of `/data`. -/
structure Disk where
  log : List Event
  data : List String

/-- Some of the entries that the loop over `/data` removes are gone. -/
def Disk.removed (d : Disk) (gone : List String) : Disk := { d with data := d.data.filter (· ∉ gone) }

def Disk.record (d : Disk) (touch : Touch) (ret : Int) : Disk := { d with log := d.log ++ [⟨touch, ret⟩] }

/-- What the shell commands of `format_unknown_device` do to a path. -/
def RemoveStep (path : String) (s s' : Disk) : Prop :=
  if path = "/data" then
    ∃ grep, ∃ gone ⊆ forList grep s.data, s' = (s.removed gone).record (.clear path) 0
  else s' = s.record (.clear path) 0

/-- Every call can succeed or fail. -/
def rootsSem : Sem RootsOp Disk
  | _, .act touch, s, r, s' => s' = s.record touch r
  | _, .remove path, s, _, s' => RemoveStep path s s'
  | _, _, s, _, s' => s' = s

/-! ## Formatting -/

def ensurePathUnmounted (vs : List Volume) (path : String) : Prog RootsOp Int :=
  if startsWith path "/data" && isDataMedia vs then pure 0
  else
    match volumeForPath vs path with
    | none => pure (-1)
    | some v =>
      -- `ensure_path_unmounted("/data")`, which returns 0 as this volume makes `is_data_media()` true
      if isDataMediaVolume v then pure 0
      else if v.fs_type = "ramdisk" then pure (-1)
      else call (.unmountVolume v.mount_point)

/-- `get_flash_type(fs_type) != UNSUPPORTED` -/
def isFlashType (fs_type : String) : Bool := fs_type == "mtd" || fs_type == "emmc" || fs_type == "bml"

/-- The end of `format_unknown_device`: mount the path and remove what is in it. -/
def removeEntries (vs : List Volume) (path : String) : Prog RootsOp Int := do
  let mounted ← call (.ensurePathMounted path)
  if mounted ≠ 0 then pure 0
  else
    call (.remove path)
    let _ ← ensurePathUnmounted vs path
    pure 0

/-- `format_ext3_device` and `format_ext2_device` behind an unmount. -/
def formatExt (vs : List Volume) (how : Reformat) (device path : String) : Prog RootsOp Int := do
  let unmounted ← ensurePathUnmounted vs path
  if unmounted ≠ 0 then pure (-12) else call (.act (.reformat how device))

/-- `format_unknown_device` behind the check of `/sd-ext`. -/
def formatFound (vs : List Volume) (device path : String) (fs_type : Option String) :
    Prog RootsOp Int :=
  if fs_type = some "ext3" then formatExt vs .format_ext3_device device path
  else if fs_type = some "ext2" then formatExt vs .format_ext2_device device path
  else removeEntries vs path

/-- `format_unknown_device(device, path, fs_type)`; the device is not looked at without a type. -/
def formatUnknownDevice (vs : List Volume) (device path : String) (fs_type : Option String) :
    Prog RootsOp Int :=
  if fs_type.any isFlashType then call (.act (.reformat .erase_raw_partition device))
  else if path = "/sd-ext" then
    match volumeForPath vs "/sd-ext" with
    | none => pure 0
    | some v => do
      let found ← call (.statDevice v.device)
      if found ≠ 0 then pure 0 else formatFound vs device path fs_type
  else formatFound vs device path fs_type

/-- The status -1 for every failure. -/
def failure (ret : Int) : Int := if ret ≠ 0 then -1 else 0

/-- The end of `format_volume` and of `format_device`. -/
def formatFilesystem (vs : List Volume) (device path fs_type : String) : Prog RootsOp Int := do
  let unmounted ← ensurePathUnmounted vs path
  if unmounted ≠ 0 then pure (-1)
  else if fs_type = "yaffs2" ∨ fs_type = "mtd" then
    let found ← call (.mtdFindPartition device)
    if found = false then pure (-1)
    else
      let ret ← call (.act (.reformat .mtd_erase_blocks device))
      pure (failure ret)
  else if fs_type = "ext4" then
    let ret ← call (.act (.reformat .make_ext4fs device))
    pure (failure ret)
  else formatUnknownDevice vs device path (some fs_type)

def formatVolume (vs : List Volume) (volume : String) : Prog RootsOp Int :=
  match volumeForPath vs volume with
  | none => pure (-1)
  | some v =>
    if isDataMediaVolume v then formatUnknownDevice vs "" volume none
    else if startsWith volume "/data" && isDataMedia vs then formatUnknownDevice vs "" volume none
    else if v.fs_type = "ramdisk" then pure (-1)
    else if v.mount_point ≠ volume then formatUnknownDevice vs v.device volume none
    else formatFilesystem vs v.device volume v.fs_type

def formatRfs (vs : List Volume) (device path : String) : Prog RootsOp Int := do
  let unmounted ← ensurePathUnmounted vs path
  if unmounted ≠ 0 then pure (-1)
  else
    let ret ← call (.act (.reformat .format_rfs_device device))
    pure (failure ret)

def formatDevice (vs : List Volume) (device path fs_type : String) : Prog RootsOp Int :=
  match volumeForPath vs path with
  | none =>
    if startsWith path "/sdcard" && isDataMedia vs then formatUnknownDevice vs "" path none
    else pure (-1)
  | some v =>
    -- Unlike `format_volume`, this looks for `/sdcard` in the table.
    if startsWith path "/data" && (volumeForPath vs "/sdcard").isNone && isDataMedia vs then
      formatUnknownDevice vs "" path none
    else if fs_type = "ramdisk" then pure (-1)
    else if fs_type = "rfs" then formatRfs vs device path
    else if v.mount_point ≠ path then formatUnknownDevice vs v.device path none
    else formatFilesystem vs device path fs_type

/-! ## What the calls do -/

/-- Every change of the log is one of the touches allowed, and none follows one that failed. -/
structure Tidy (T : Touch → Prop) (new : List Event) : Prop where
  touches : ∀ e ∈ new, T e.touch
  stops : ∀ e ∈ new.dropLast, e.ret = 0

/-- No change failed. -/
def Ok (new : List Event) : Prop := ∀ e ∈ new, e.ret = 0

variable {α β : Type} {T T' : Touch → Prop}

theorem Ok.nil : Ok [] := fun _ h => absurd h List.not_mem_nil

theorem Tidy.nil : Tidy T [] :=
  ⟨fun _ h => absurd h List.not_mem_nil, fun _ h => absurd h List.not_mem_nil⟩

theorem Tidy.single {e : Event} (h : T e.touch) : Tidy T [e] :=
  ⟨fun _ he => by rwa [List.mem_singleton.mp he], fun _ he => absurd he List.not_mem_nil⟩

theorem Disk.removed_nil (s : Disk) : s.removed [] = s := by
  have hall : s.data.filter (fun n => decide (n ∉ ([] : List String))) = s.data := by simp
  rw [Disk.removed, hall]

/-- The loop over `/data` leaves its entries alone. -/
theorem RemoveStep.eq {path : String} {s s' : Disk} (h : RemoveStep path s s') :
    s' = s.record (.clear path) 0 := by
  unfold RemoveStep at h
  split at h
  · obtain ⟨grep, gone, hsub, rfl⟩ := h
    rw [forList_eq_nil, List.subset_nil] at hsub
    rw [hsub, Disk.removed_nil]
  · exact h

theorem Tidy.append {new new' : List Event} (h : Tidy T new) (hok : Ok new) (h' : Tidy T new') :
    Tidy T (new ++ new') := by
  constructor
  · intro e he
    rcases List.mem_append.mp he with he | he
    · exact h.touches e he
    · exact h'.touches e he
  · intro e he
    by_cases hne : new' = []
    · rw [hne, List.append_nil] at he
      exact h.stops e he
    · rw [List.dropLast_append_of_ne_nil hne] at he
      rcases List.mem_append.mp he with he | he
      · exact hok e he
      · exact h'.stops e he

/-- The changes that a program makes are tidy wherever it is cut off, and with its result they
have `Q`. -/
def Spec (T : Touch → Prop) (Q : α → List Event → Prop) (p : Prog RootsOp α) : Prop :=
  ∀ s, Prog.wp rootsSem (fun s' => ∃ new, s'.log = s.log ++ new ∧ Tidy T new)
    (fun a s' => ∃ new, s'.log = s.log ++ new ∧ Tidy T new ∧ Q a new) p s

namespace Spec

variable {Q Q' : α → List Event → Prop} {p : Prog RootsOp α}

theorem mono (hT : ∀ t, T t → T' t) (hQ : ∀ a new, Q a new → Q' a new) (h : Spec T Q p) :
    Spec T' Q' p := by
  have htidy : ∀ new, Tidy T new → Tidy T' new := fun new ht => ⟨fun e he => hT _ (ht.touches e he), ht.stops⟩
  intro s
  refine Prog.wp_mono ?_ ?_ (h s)
  · rintro s' ⟨new, hl, ht⟩
    exact ⟨new, hl, htidy new ht⟩
  · rintro a s' - ⟨new, hl, ht, hq⟩
    exact ⟨new, hl, htidy new ht, hQ a new hq⟩

theorem pure {a : α} (h : Q a []) : Spec T Q (Pure.pure a) := by
  intro s
  have hl : s.log = s.log ++ [] := (List.append_nil _).symm
  exact ⟨⟨[], hl, .nil⟩, [], hl, .nil, h⟩

/-- After `p` either no change failed and the rest follows, or the program ends. -/
theorem bind {Q' : β → List Event → Prop} {f : α → Prog RootsOp β} (hp : Spec T Q p)
    (hf : ∀ a new, Q a new → (Ok new ∧ Spec T (fun b new' => Q' b (new ++ new')) (f a)) ∨
      ∃ b, f a = Pure.pure b ∧ Q' b new) : Spec T Q' (p >>= f) := by
  intro s
  rw [Prog.wp_bind]
  refine Prog.wp_mono (fun _ h => h) ?_ (hp s)
  rintro a s₁ hc ⟨new, hl, ht, hq⟩
  obtain ⟨hok, hspec⟩ | ⟨b, hb, hq'⟩ := hf a new hq
  · refine Prog.wp_mono ?_ ?_ (hspec s₁)
    · rintro s' ⟨new', hl', ht'⟩
      exact ⟨new ++ new', by rw [hl', hl, List.append_assoc], ht.append hok ht'⟩
    · rintro b s' - ⟨new', hl', ht', hq'⟩
      exact ⟨new ++ new', by rw [hl', hl, List.append_assoc], ht.append hok ht', hq'⟩
  · rw [hb]
    exact ⟨⟨new, hl, ht⟩, new, hl, ht, hq'⟩

theorem act {touch : Touch} (h : T touch) :
    Spec T (fun r new => new = [⟨touch, r⟩]) (call (.act touch)) := by
  intro s
  refine ⟨⟨[], (List.append_nil _).symm, .nil⟩, fun r s' hs => ?_⟩
  have hl : s'.log = s.log ++ [⟨touch, r⟩] := by rw [show s' = s.record touch r from hs]; rfl
  exact ⟨⟨_, hl, .single h⟩, _, hl, .single h, rfl⟩

theorem remove {path : String} (h : T (.clear path)) :
    Spec T (fun _ new => new = [⟨.clear path, 0⟩]) (call (.remove path)) := by
  intro s
  refine ⟨⟨[], (List.append_nil _).symm, .nil⟩, fun r s' hs => ?_⟩
  have hl : s'.log = s.log ++ [⟨.clear path, 0⟩] := by rw [RemoveStep.eq hs]; rfl
  exact ⟨⟨_, hl, .single h⟩, _, hl, .single h, rfl⟩

/-- A call that changes nothing. -/
theorem quiet {o : RootsOp α} (ho : ∀ s r s', rootsSem _ o s r s' → s' = s) :
    Spec T (fun _ new => new = []) (call o) := by
  intro s
  refine ⟨⟨[], (List.append_nil _).symm, .nil⟩, fun r s' hs => ?_⟩
  cases ho s r s' hs
  exact ⟨⟨[], (List.append_nil _).symm, .nil⟩, [], (List.append_nil _).symm, .nil, rfl⟩

/-- Behind a part that changes nothing. -/
theorem quiet_bind {Q' : β → List Event → Prop} {f : α → Prog RootsOp β}
    (hp : Spec T (fun _ new => new = []) p) (hf : ∀ a, Spec T Q' (f a)) : Spec T Q' (p >>= f) := by
  refine hp.bind fun a new hnew => .inl ?_
  subst hnew
  exact ⟨.nil, hf a⟩

/-- A change whose status is passed on. -/
theorem act_failure {touch : Touch} (h : T touch) : Spec T (fun ret new => ret = 0 → Ok new)
    (do let ret ← call (.act touch); Pure.pure (failure ret)) := by
  refine (act h).bind fun r new hnew => .inr ⟨_, rfl, fun h0 => ?_⟩
  subst hnew
  intro e he
  rw [List.mem_singleton.mp he]
  by_contra hr
  simp [failure, hr] at h0

theorem act_ret {touch : Touch} (h : T touch) : Spec T (fun ret new => ret = 0 → Ok new)
    (call (.act touch)) := by
  refine (act h).mono (fun _ h => h) fun r new hnew h0 e he => ?_
  subst hnew
  rw [List.mem_singleton.mp he]
  exact h0

end Spec

theorem ensurePathUnmounted_spec (vs : List Volume) (path : String) :
    Spec T (fun _ new => new = []) (ensurePathUnmounted vs path) := by
  unfold ensurePathUnmounted
  split
  · exact .pure rfl
  · split
    · exact .pure rfl
    · split
      · exact .pure rfl
      · split
        · exact .pure rfl
        · exact .quiet fun _ _ _ h => h

/-- A file system type for which the device is reformatted. -/
def reformats (fs_type : String) : Bool :=
  isFlashType fs_type || ["yaffs2", "ext4", "ext3", "ext2", "rfs"].contains fs_type

section Format

variable {vs : List Volume} {device path : String} (hclear : T (.clear path))

include hclear

theorem removeEntries_spec : Spec T (fun ret new => ret = 0 → Ok new) (removeEntries vs path) := by
  refine Spec.quiet_bind (.quiet fun _ _ _ h => h) fun mounted => ?_
  split
  · exact .pure fun _ => .nil
  · refine (Spec.remove hclear).bind fun _ new hnew => .inl ⟨?_, ?_⟩
    · subst hnew
      intro e he
      rw [List.mem_singleton.mp he]
    · refine Spec.quiet_bind (ensurePathUnmounted_spec vs path) fun _ => .pure fun _ e he => ?_
      subst hnew
      rw [List.append_nil] at he
      rw [List.mem_singleton.mp he]

theorem formatFound_spec {fs_type : Option String}
    (hre : ∀ fs ∈ fs_type, reformats fs = true → ∀ how, T (.reformat how device)) :
    Spec T (fun ret new => ret = 0 → Ok new) (formatFound vs device path fs_type) := by
  have hext : ∀ how, T (.reformat how device) →
      Spec T (fun ret new => ret = 0 → Ok new) (formatExt vs how device path) := by
    intro how hT
    refine Spec.quiet_bind (ensurePathUnmounted_spec vs path) fun unmounted => ?_
    split
    · exact .pure fun _ => .nil
    · exact Spec.act_ret hT
  unfold formatFound
  split
  · rename_i h
    exact hext _ (hre "ext3" (by rw [h]; rfl) (by decide) _)
  · split
    · rename_i h
      exact hext _ (hre "ext2" (by rw [h]; rfl) (by decide) _)
    · exact removeEntries_spec hclear

/-- `format_unknown_device` clears the path, or reformats the device where the type says so. -/
theorem formatUnknownDevice_spec {fs_type : Option String}
    (hre : ∀ fs ∈ fs_type, reformats fs = true → ∀ how, T (.reformat how device)) :
    Spec T (fun ret new => ret = 0 → Ok new) (formatUnknownDevice vs device path fs_type) := by
  unfold formatUnknownDevice
  split
  · rename_i h
    obtain ⟨fs, hfs, hflash⟩ := (Option.any_eq_true _ _).mp h
    refine Spec.act_ret (hre fs hfs ?_ _)
    rw [reformats, hflash, Bool.true_or]
  · split
    · split
      · exact .pure fun _ => .nil
      · refine Spec.quiet_bind (.quiet fun _ _ _ h => h) fun found => ?_
        split
        · exact .pure fun _ => .nil
        · exact formatFound_spec hclear hre
    · exact formatFound_spec hclear hre

theorem formatFilesystem_spec {fs_type : String}
    (hre : reformats fs_type = true → ∀ how, T (.reformat how device)) :
    Spec T (fun ret new => ret = 0 → Ok new) (formatFilesystem vs device path fs_type) := by
  refine Spec.quiet_bind (ensurePathUnmounted_spec vs path) fun unmounted => ?_
  split
  · exact .pure fun _ => .nil
  · split
    · rename_i h
      refine Spec.quiet_bind (.quiet fun _ _ _ h => h) fun found => ?_
      split
      · exact .pure fun _ => .nil
      · refine Spec.act_failure (hre ?_ _)
        rcases h with rfl | rfl
        · decide
        · decide
    · split
      · rename_i h
        exact Spec.act_failure (hre (by rw [h]; decide) _)
      · refine formatUnknownDevice_spec hclear fun fs hfs hr => hre ?_
        rwa [Option.mem_some_iff.mp hfs]

/-- `format_volume` clears the path, or reformats the device of the volume unless the volume belongs
to the internal storage. -/
theorem formatVolume_spec (hre : ∀ v, volumeForPath vs path = some v → v.mount_point = path →
      (startsWith path "/data" && isDataMedia vs) = false → ∀ how, T (.reformat how v.device)) :
    Spec T (fun ret new => ret = 0 → Ok new) (formatVolume vs path) := by
  have hnone : ∀ d, Spec T (fun ret new => ret = 0 → Ok new)
      (formatUnknownDevice vs d path none) := fun d =>
    formatUnknownDevice_spec hclear fun fs hfs => absurd hfs (Option.not_mem_none fs)
  unfold formatVolume
  split
  · exact .pure fun _ => .nil
  · rename_i v hv
    split
    · exact hnone _
    · split
      · exact hnone _
      · rename_i hdata
        split
        · exact .pure fun _ => .nil
        · split
          · exact hnone _
          · rename_i hmp
            exact formatFilesystem_spec hclear fun _ =>
              hre v hv (not_not.mp hmp) (by simpa using hdata)

/-- `format_device` clears the path, or reformats the device where the type says so. -/
theorem formatDevice_spec {fs_type : String} (hre : ∀ v, volumeForPath vs path = some v →
      (startsWith path "/data" && (volumeForPath vs "/sdcard").isNone && isDataMedia vs) = false →
      reformats fs_type = true → (fs_type = "rfs" ∨ v.mount_point = path) →
      ∀ how, T (.reformat how device)) :
    Spec T (fun ret new => ret = 0 → Ok new) (formatDevice vs device path fs_type) := by
  have hnone : ∀ d, Spec T (fun ret new => ret = 0 → Ok new)
      (formatUnknownDevice vs d path none) := fun d =>
    formatUnknownDevice_spec hclear fun fs hfs => absurd hfs (Option.not_mem_none fs)
  unfold formatDevice
  split
  · split
    · exact hnone _
    · exact .pure fun _ => .nil
  · rename_i v hv
    split
    · exact hnone _
    · rename_i hdata
      have hdata' := Bool.eq_false_iff.mpr hdata
      split
      · exact .pure fun _ => .nil
      · split
        · rename_i hrfs
          refine Spec.quiet_bind (ensurePathUnmounted_spec vs path) fun unmounted => ?_
          split
          · exact .pure fun _ => .nil
          · exact Spec.act_failure (hre v hv hdata' (by rw [hrfs]; decide) (.inl hrfs) _)
        · split
          · exact hnone _
          · rename_i hmp
            exact formatFilesystem_spec hclear fun hr =>
              hre v hv hdata' hr (.inr (not_not.mp hmp))

end Format

/-- The answers of a device on which every call works. -/
def worksAnswer : ∀ β : Type, RootsOp β → Disk → β × Disk
  | _, .ensurePathMounted _, s => (0, s)
  | _, .unmountVolume _, s => (0, s)
  | _, .mtdFindPartition _, s => (true, s)
  | _, .statDevice _, s => (0, s)
  | _, .act touch, s => (0, s.record touch 0)
  | _, .remove path, s => ((), s.record (.clear path) 0)
  | _, .mountedFilesystem _, s => (some "ext4", s)
  | _, .preferDedupe, s => ("false", s)
  | _, .checkMd5 _, s => (true, s)

theorem worksAnswer_sem (o : RootsOp β) (s : Disk) :
    rootsSem _ o s (worksAnswer _ o s).1 (worksAnswer _ o s).2 := by
  cases o with
  | remove path =>
    show RemoveStep path s (s.record (.clear path) 0)
    unfold RemoveStep
    split
    · exact ⟨fun _ _ => [], [], List.nil_subset _, by rw [Disk.removed_nil]⟩
    · rfl
  | _ => rfl

/-- No program changes the entries of `/data` that the loop runs over. -/
theorem reaches_data {p : Prog RootsOp α} {s s' : Disk} (h : Reaches rootsSem p s s') :
    s'.data = s.data := by
  induction h with
  | here => rfl
  | @step γ o k s s₁ s' r hs _ ih =>
    rw [ih]
    cases o with
    | act touch => rw [show s₁ = s.record touch r from hs]; rfl
    | remove path => rw [RemoveStep.eq hs]; rfl
    | _ => rw [show s₁ = s from hs]

end Miui
