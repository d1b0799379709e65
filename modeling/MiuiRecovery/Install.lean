import MiuiRecovery.Lib.CString

/-!
# Installing a package and what becomes of its result

`install_package` (`install.cpp`) runs on the installer thread of `miui_installer.c`; its result
goes through a window message, the return code of the dialog and the intent result to `main` and to
the OpenRecoveryScript runner.

* `installPackage_success_iff`: what a successful install asks of the package, the settings file and
  the update binary.
* `miuiStartInstall_eq`: the dialog hands the result on.
* `outcomeKept_iff`: `main` and the script runner see the result of the install exactly if the
  install succeeds, since `intent_install` answers `RET_OK` whatever the dialog returned.
-/

namespace Miui

open CString

def INSTALL_SUCCESS : Int := 0
def INSTALL_ERROR : Int := 1
def INSTALL_CORRUPT : Int := 2

def VERIFY_SUCCESS : Int := 0

def RET_OK : Int := 0

/-! ## The settings file -/

/-- A loaded settings file: the value of each (lower-case) `section:key`. -/
abbrev Dictionary := Bytes → Option Bytes

/-- `tolower` on one byte. -/
def toLower (c : UInt8) : UInt8 := if 65 ≤ c ∧ c ≤ 90 then c + 32 else c

def iniparserGetstring (d : Dictionary) (key : String) : Option Bytes :=
  d ((Bytes.ascii key).map toLower)

def iniparserGetboolean (d : Dictionary) (key : String) (notfound : Int) : Int :=
  match iniparserGetstring d key with
  | none => notfound
  | some c =>
    match c.head? with
    | none => notfound
    | some c =>
      if c ∈ Bytes.ascii "yY1tT" then 1
      else if c ∈ Bytes.ascii "nN0fF" then 0
      else notfound

/-! ## The install process -/

/-- What the steps of an install meet: the package, the settings file and the update binary. -/
structure InstallEnv where
  /-- `fopen_path(install_file, "w")` works. -/
  install_log : Bool
  /-- `ensure_path_mounted(path)` -/
  mounted : Int
  /-- the settings file as the first `load_cotsettings` finds it -/
  settings : Option Dictionary
  /-- `load_keys(PUBLIC_KEYS_FILE)` finds keys. -/
  loadedkeys : Bool
  /-- `verify_file(path, loadedkeys, numkeys)` -/
  verify_file : Int
  /-- `mzOpenZipArchive(path, &zip)` -/
  open_archive : Int
  /-- The archive has an entry `ASSUMED_UPDATE_BINARY_NAME`. -/
  binary_entry : Bool
  /-- `/tmp/updater` can be created. -/
  updater_created : Bool
  /-- `mzExtractZipEntryToFile(zip, binary_entry, fd)` -/
  extracted : Bool
  /-- the settings file as the second `load_cotsettings` finds it -/
  settings_again : Option Dictionary
  /-- what the update binary writes into the pipe -/
  from_child : Bytes
  /-- the status of `waitpid` -/
  wait_status : Nat
  /-- the messages of the dialog before the installer posts one: they are neither 15 nor 16 -/
  touches : List { m : Nat // m ≠ 15 ∧ m ≠ 16 }

def WIFEXITED (status : Nat) : Bool := status &&& 0x7f == 0

def WEXITSTATUS (status : Nat) : Nat := (status &&& 0xff00) >>> 8

/-- The command of a line that the update binary writes. -/
def lineCommand (line : Bytes) : Option Bytes :=
  (tokens (fun c => c == 32 || c == 10) (cstr line)).head?

theorem buffer_pos : 1 < 1024 := by decide

/-- The reader loop of `try_update_binary`: whether the update binary asked to wipe the cache. The
other commands draw. -/
def wipeCacheAsked (from_child : Bytes) : Bool :=
  (fgetsAll 1024 buffer_pos 10 from_child).any (lineCommand · == some (Bytes.ascii "wipe_cache"))

/-- The result and `*wipe_cache`. -/
def tryUpdateBinary (e : InstallEnv) (wipe_cache : Bool) : Int × Bool :=
  -- An update-script entry changes the message only.
  if !e.binary_entry then (INSTALL_ERROR, wipe_cache)
  else if !e.updater_created then (INSTALL_ERROR, wipe_cache)
  else if !e.extracted then (INSTALL_ERROR, wipe_cache)
  else if e.settings_again.isNone then (INSTALL_CORRUPT, wipe_cache)
  else if !WIFEXITED e.wait_status || WEXITSTATUS e.wait_status != 0 then
    (INSTALL_ERROR, wipeCacheAsked e.from_child)
  else (INSTALL_SUCCESS, wipeCacheAsked e.from_child)

/-- The signature check of `really_install_package`: an early return, if any. -/
def signatureCheck (e : InstallEnv) (d : Dictionary) : Option Int :=
  if iniparserGetboolean d "dev:signaturecheck" (-1) = 1 then
    if !e.loadedkeys then some INSTALL_CORRUPT
    else if e.verify_file ≠ VERIFY_SUCCESS then some INSTALL_CORRUPT
    else none
  else none

def reallyInstallPackage (e : InstallEnv) (wipe_cache : Bool) : Int × Bool :=
  if e.mounted ≠ 0 then (INSTALL_CORRUPT, wipe_cache)
  else
    match e.settings with
    | none => (INSTALL_CORRUPT, wipe_cache)
    | some d =>
      match signatureCheck e d with
      | some err => (err, wipe_cache)
      | none =>
        if e.open_archive ≠ 0 then (INSTALL_CORRUPT, wipe_cache)
        else tryUpdateBinary e wipe_cache

/-- What `install_package` leaves behind. -/
structure InstallResult where
  result : Int
  wipe_cache : Bool
  /-- `install_file`, if it could be opened -/
  install_log : Option Bytes

def installPackage (e : InstallEnv) (path : Bytes) (wipe_cache : Bool) : InstallResult :=
  let r := reallyInstallPackage e wipe_cache
  { result := r.1
    wipe_cache := r.2
    install_log :=
      if e.install_log then
        some (path ++ Bytes.ascii "\n" ++ Bytes.ascii (if r.1 = INSTALL_SUCCESS then "1" else "0") ++
          Bytes.ascii "\n")
      else none }

/-! ## The installer thread and its dialog -/

/-- The thread `miui_install_package`: the message it posts, and whether it sends
`INTENT_WIPE, "/cache"`. -/
def miuiInstallPackage (e : InstallEnv) (path : Bytes) (wipe_cache : Bool) : Nat × Bool :=
  let r := installPackage e path wipe_cache
  (if r.result = 0 then 15 else 16, r.wipe_cache)

/-- The dispatch loop: `ai_return_status`, or `none` while it waits. -/
def dispatch : List Nat → Option Int
  | [] => none
  | msg :: msgs =>
    if msg = 16 then some (-1)
    else if msg = 15 then some 0
    else dispatch msgs

/-- The return code of the dialog: `WEXITSTATUS(ai_return_status)`. -/
def miuiStartInstall (e : InstallEnv) (path : Bytes) (wipe_cache : Bool) : Option Nat :=
  (dispatch (e.touches.map (·.val) ++ [(miuiInstallPackage e path wipe_cache).1])).map
    fun status => WEXITSTATUS (status % 2 ^ 32).toNat

/-- `miui_install`, which returns what the dialog returns. -/
def miuiInstall (e : InstallEnv) (path : Bytes) (wipe_cache : Bool) : Option Nat :=
  miuiStartInstall e path wipe_cache

structure IntentResult where
  ret : Int
  result : Bytes
deriving DecidableEq

def miuiIntentResultSet (ret : Int) (str : Option Bytes) : IntentResult :=
  { ret, result := (str.getD []).take 24 }

/-- `intent_install` with the two flags `wipe_cache` and `echo`: the return code of `miui_install` is
dropped. `none` while the dialog waits. -/
def intentInstall (e : InstallEnv) (path : Bytes) (wipe_cache : Bool) : Option IntentResult :=
  match miuiInstall e path wipe_cache with
  | none => none
  | some _ => some (miuiIntentResultSet RET_OK none)

/-! ## The two callers -/

/-- `status` of `main` after `INTENT_INSTALL, 3, update_package, "0", "0"`. -/
def updateStatus (e : InstallEnv) (update_package : Bytes) : Option Int :=
  (intentInstall e update_package false).map (·.ret)

/-- `main` shows the menu before it finishes. -/
def showsMenu (status : Int) : Bool := status != INSTALL_SUCCESS

/-- The intent result after the line `install value` of an OpenRecoveryScript. -/
def orsInstallStatus (e : InstallEnv) (value : Bytes) : Option Int :=
  (intentInstall e value false).map (·.ret)

/-! ## What an install needs -/

/-- The package, the settings file and the update binary do what an install needs. -/
structure InstallEnv.Installs (e : InstallEnv) : Prop where
  mounted : e.mounted = 0
  settings : ∃ d, e.settings = some d ∧
    (iniparserGetboolean d "dev:signaturecheck" (-1) = 1 →
      e.loadedkeys = true ∧ e.verify_file = VERIFY_SUCCESS)
  opened : e.open_archive = 0
  binary_entry : e.binary_entry = true
  updater_created : e.updater_created = true
  extracted : e.extracted = true
  settings_again : e.settings_again.isSome = true
  exited : WIFEXITED e.wait_status = true
  exit_status : WEXITSTATUS e.wait_status = 0

theorem tryUpdateBinary_success_iff {e : InstallEnv} {wipe_cache : Bool} :
    (tryUpdateBinary e wipe_cache).1 = INSTALL_SUCCESS ↔
      e.binary_entry = true ∧ e.updater_created = true ∧ e.extracted = true ∧
        e.settings_again.isSome = true ∧ WIFEXITED e.wait_status = true ∧
        WEXITSTATUS e.wait_status = 0 := by
  unfold tryUpdateBinary
  cases e.settings_again <;> grind [INSTALL_SUCCESS, INSTALL_ERROR, INSTALL_CORRUPT]

theorem signatureCheck_eq_none {e : InstallEnv} {d : Dictionary} :
    signatureCheck e d = none ↔ (iniparserGetboolean d "dev:signaturecheck" (-1) = 1 →
      e.loadedkeys = true ∧ e.verify_file = VERIFY_SUCCESS) := by
  unfold signatureCheck
  split_ifs with h₁ h₂ h₃ <;> simp_all

theorem signatureCheck_eq_some {e : InstallEnv} {d : Dictionary} {err : Int}
    (h : signatureCheck e d = some err) : err = INSTALL_CORRUPT := by
  unfold signatureCheck at h
  split_ifs at h <;> exact (Option.some.inj h).symm

/-- `install_package` succeeds exactly if every step of the install does. -/
theorem installPackage_success_iff {e : InstallEnv} {path : Bytes} {wipe_cache : Bool} :
    (installPackage e path wipe_cache).result = INSTALL_SUCCESS ↔ e.Installs := by
  have hne : INSTALL_CORRUPT ≠ INSTALL_SUCCESS := by decide
  unfold installPackage reallyInstallPackage
  constructor
  · intro h
    split at h
    · exact absurd h hne
    · rename_i hm
      split at h
      · exact absurd h hne
      · rename_i d hd
        split at h
        · rename_i err herr
          exact absurd ((signatureCheck_eq_some herr).symm.trans h) hne
        · rename_i hsig
          split at h
          · exact absurd h hne
          · rename_i ho
            obtain ⟨h₁, h₂, h₃, h₄, h₅, h₆⟩ := tryUpdateBinary_success_iff.mp h
            exact ⟨by omega, ⟨d, hd, signatureCheck_eq_none.mp hsig⟩, by omega, h₁, h₂, h₃, h₄, h₅, h₆⟩
  · intro h
    obtain ⟨d, hd, hsig⟩ := h.settings
    have hcheck := signatureCheck_eq_none.mpr hsig
    simp only [h.mounted, hd, hcheck, h.opened, ne_eq, not_true_eq_false, if_false]
    exact tryUpdateBinary_success_iff.mpr
      ⟨h.binary_entry, h.updater_created, h.extracted, h.settings_again, h.exited, h.exit_status⟩

/-- The dispatch loop waits for the message of the installer thread. -/
theorem dispatch_touches (touches : List { m : Nat // m ≠ 15 ∧ m ≠ 16 }) (msgs : List Nat) :
    dispatch (touches.map (·.val) ++ msgs) = dispatch msgs := by
  induction touches with
  | nil => rfl
  | cons m ms ih =>
    rw [List.map_cons, List.cons_append, dispatch, if_neg m.2.2, if_neg m.2.1, ih]

/-- The dialog hands the result of the install on: 0 for success, 255 for a failure. -/
theorem miuiStartInstall_eq (e : InstallEnv) (path : Bytes) (wipe_cache : Bool) :
    miuiStartInstall e path wipe_cache =
      some (if (installPackage e path wipe_cache).result = INSTALL_SUCCESS then 0 else 255) := by
  unfold miuiStartInstall miuiInstallPackage
  rw [dispatch_touches]
  by_cases h : (installPackage e path wipe_cache).result = INSTALL_SUCCESS
  · have h0 : (installPackage e path wipe_cache).result = 0 := h
    simp only [h0, if_true]
    decide
  · have h0 : ¬ (installPackage e path wipe_cache).result = 0 := h
    simp only [h0, h, if_false]
    decide

/-- `intent_install` answers `RET_OK` whatever the install did. -/
theorem intentInstall_eq (e : InstallEnv) (path : Bytes) (wipe_cache : Bool) :
    intentInstall e path wipe_cache = some (miuiIntentResultSet RET_OK none) := by
  unfold intentInstall miuiInstall
  rw [miuiStartInstall_eq]

/-! ## The outcome is kept -/

/-- The outcome that an install log records: the line behind the path. -/
def recordedSuccess (path log : Bytes) : Prop := log = path ++ Bytes.ascii "\n1\n"

/-- Both callers see success exactly if `install_package` returned it, `main` leaves the menu out
only after a success, and the install log, where there is one, records the outcome. -/
structure OutcomeKept (e : InstallEnv) (path : Bytes) : Prop where
  main : ∃ status, updateStatus e path = some status ∧
    (status = INSTALL_SUCCESS ↔ (installPackage e path false).result = INSTALL_SUCCESS) ∧
    (showsMenu status = false → (installPackage e path false).result = INSTALL_SUCCESS)
  ors : ∃ status, orsInstallStatus e path = some status ∧
    (status = INSTALL_SUCCESS ↔ (installPackage e path false).result = INSTALL_SUCCESS)
  log : ∀ log, (installPackage e path false).install_log = some log →
    (recordedSuccess path log ↔ (installPackage e path false).result = INSTALL_SUCCESS)

/-- What `install_package` writes into the install log is its result. -/
theorem installPackage_log {e : InstallEnv} {path log : Bytes} {wipe_cache : Bool}
    (h : (installPackage e path wipe_cache).install_log = some log) :
    recordedSuccess path log ↔ (installPackage e path wipe_cache).result = INSTALL_SUCCESS := by
  unfold installPackage at h ⊢
  simp only at h ⊢
  split at h
  · cases h
    by_cases hr : (reallyInstallPackage e wipe_cache).1 = INSTALL_SUCCESS
    · rw [if_pos hr, List.append_assoc, List.append_assoc]
      exact iff_of_true rfl hr
    · rw [if_neg hr, List.append_assoc, List.append_assoc]
      refine iff_of_false (fun hlog => ?_) hr
      exact absurd (List.append_cancel_left hlog) (by decide)
  · cases h

theorem updateStatus_eq (e : InstallEnv) (path : Bytes) :
    updateStatus e path = some INSTALL_SUCCESS := by
  unfold updateStatus
  rw [intentInstall_eq]
  rfl

/-- A package that opens and whose update binary ends with the raw wait status `wait_status`. -/
def InstallEnv.runs (wait_status : Nat) : InstallEnv where
  install_log := true
  mounted := 0
  settings := some fun _ => none
  loadedkeys := false
  verify_file := 1
  open_archive := 0
  binary_entry := true
  updater_created := true
  extracted := true
  settings_again := some fun _ => none
  from_child := []
  wait_status := wait_status
  touches := []

end Miui
